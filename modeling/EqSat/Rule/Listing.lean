import EqSat.Rule.Line

/-!
# Rule lists as text

Rules carry the names of the groups they belong to.  A list of rules is written with a
header in front of every run of rules of one group; rules without a group get none.
-/

namespace EqSat.Rule

/-- The group that a listing puts the rule in. -/
def group? (r : Rule) : Option String := r.tags.head?

def groupsFrom (names : List String) : List Rule → List String
  | [] => names
  | r :: rs => groupsFrom (r.tags.foldl (fun ns t => if t ∈ ns then ns else ns ++ [t]) names) rs

/-- All group names in the order in which they first appear. -/
def groups (rs : List Rule) : List String := groupsFrom [] rs

/-- The lines of a listing, after rules of the group `current`; `first` tells that no line
precedes. -/
def listingLines (first : Bool) (current : Option String) : List Rule → List String
  | [] => []
  | r :: rs =>
    let header := match r.group? with
      | none => []
      | some group =>
        if current = some group then []
        else (if first then [] else [""]) ++ ["[" ++ group ++ "]"]
    header ++ r.line :: listingLines false r.group? rs

/-- The rules as text that loads as the rules again. -/
def listing (rs : List Rule) : String := "\n".intercalate (listingLines true none rs) ++ "\n"

end EqSat.Rule
