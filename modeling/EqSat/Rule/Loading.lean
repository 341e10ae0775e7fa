import EqSat.File
import EqSat.Rule.Line

/-!
# Loading rule lists

A rule list is text: rules one a line, `[group]` lines that tag the rules after them, and
`:include path` lines that stand for the rules of another file.  Paths of includes start at
the directory of the file they are in.  A file may be included once in a load, whichever
file includes it.

A rule without a name gets the name `rule-N` for its place N in the list of its file.

    r ∈ nameFrom n rs → r.name ≠ ""        (name_ne_of_mem_nameFrom)
-/

namespace EqSat

/-- Why a rule list cannot be loaded. -/
inductive LoadError where
  | rule (cause : RuleError)
  | missingInclude (path : String)
  | file (cause : FileError)

def LoadError.message : LoadError → String
  | rule cause => cause.message
  | missingInclude path => "Include file not found: " ++ path
  | file cause => cause.message

namespace Rule

/-- The rule in a group, unless it is in one already or the group has no name. -/
def inGroup (group : String) (r : Rule) : Rule :=
  if group.isEmpty || !r.tags.isEmpty then r else { r with tags := [group] }

/-- Names for the rules that have none, the first of the list being in place `n`. -/
def nameFrom : Nat → List Rule → List Rule
  | _, [] => []
  | n, r :: rs =>
    (if r.name.isEmpty then { r with name := "rule-" ++ toString n } else r) :: nameFrom (n + 1) rs

/-- A line of a rule list. -/
inductive ListLine where
  | group (name : String)
  | load (path : String)
  | other

def includeWord : List Char := ":include ".toList

def ListLine.ofString (s : String) : ListLine :=
  let cs := Text.strip s.toList
  if cs.head? == some '[' && cs.getLast? == some ']' then
    .group (String.ofList (Text.strip (cs.drop 1).dropLast))
  else if includeWord.isPrefixOf cs then
    .load (String.ofList (Text.strip (cs.drop includeWord.length)))
  else .other

/-- Rules, and the locations of the files included so far. -/
abbrev Loaded := List Rule × List Location

/-- The lines of a text. -/
def linesOf (text : String) : List String := (text.toList.splitOn '\n').map String.ofList

/-- The paths that a text includes, its own paths starting at `base`. -/
def includes (base : Path) (text : String) : List Path :=
  (linesOf text).filterMap fun line => match ListLine.ofString line with
    | .load path => some (base.join (Path.ofString path))
    | _ => none

/-- Check an include and load it by `load`. -/
def loadInclude (fs : FileSet) (load : Path → List Location → Except LoadError Loaded)
    (path : Path) (included : List Location) : Except LoadError Loaded :=
  if !path.isUsable then .error (.file .unusable)
  else if path.resolve ∈ included then .error (.rule (.circularInclude path.text))
  else match fs.contains path with
    | .error e => .error (.file e)
    | .ok true => load path (path.resolve :: included)
    | .ok false => .error (.missingInclude path.text)

/-- The rules of the lines after a line of the group `group`. -/
def loadLines (fs : FileSet) (base : Path)
    (load : Path → List Location → Except LoadError Loaded) :
    List String → String → List Location → Except LoadError Loaded
  | [], _, included => .ok ([], included)
  | line :: lines, group, included =>
    match ListLine.ofString line with
    | .group name => loadLines fs base load lines name included
    | .load path => do
      let (new, included) ← loadInclude fs load (base.join (Path.ofString path)) included
      let (rest, included) ← loadLines fs base load lines group included
      .ok (new.map (inGroup group) ++ rest, included)
    | .other => do
      let new ← (ofLine line).mapError .rule
      let (rest, included) ← loadLines fs base load lines group included
      .ok ((new.map (inGroup group)).toList ++ rest, included)

/-- The rules of a text whose includes start at `base`. -/
def loadTextWith (fs : FileSet) (load : Path → List Location → Except LoadError Loaded)
    (base : Path) (text : String) (included : List Location) : Except LoadError Loaded := do
  let (rules, included) ← loadLines fs base load (linesOf text) "" included
  .ok (nameFrom 1 rules, included)

/-- The rules of a file, with includes nested at most `depth` deep. -/
def loadFileWithin (fs : FileSet) : Nat → Path → List Location → Except LoadError Loaded
  | 0, path, _ => .error (.rule (.circularInclude path.text))
  | depth + 1, path, included => do
    let text ← (fs.read path).mapError .file
    loadTextWith fs (loadFileWithin fs depth) path.parent text included

/-- More than the longest chain of includes without a repetition. -/
def includeDepth (fs : FileSet) : Nat := fs.size + 2

/-- The rules of a text; includes start at the current directory. -/
def loadText (fs : FileSet) (text : String) : Except LoadError (List Rule) :=
  (loadTextWith fs (loadFileWithin fs (includeDepth fs)) Path.current text []).map Prod.fst

/-- The rules of a file. -/
def loadFile (fs : FileSet) (path : String) : Except LoadError (List Rule) :=
  (loadFileWithin fs (includeDepth fs) (Path.ofString path) []).map Prod.fst

/-! ## Lemmas -/

/-- After naming, every rule has a name. -/
theorem name_ne_of_mem_nameFrom {n : Nat} {rs : List Rule} {r : Rule} (h : r ∈ nameFrom n rs) :
    r.name ≠ "" := by
  induction rs generalizing n with
  | nil => cases h
  | cons s rs ih =>
    rw [nameFrom, List.mem_cons] at h
    rcases h with rfl | h
    · by_cases hs : s.name.isEmpty = true
      · rw [if_pos hs]
        exact fun he => by simp [String.ext_iff] at he
      · rw [if_neg hs]
        exact fun he => hs (by rw [he]; rfl)
    · exact ih h

end Rule

end EqSat
