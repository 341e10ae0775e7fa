import EqSat.Rule
import EqSat.Text.Word

/-!
# Rules as lines of text

    @name: lhs => rhs
    @name "description": lhs => rhs
    @name: lhs => rhs when (guard :x)
    lhs => rhs

The left side writes its variables behind `?`, the right side and the guard behind `:`.
A blank line and a line behind `#` hold no rule.

    splitArrow? cs = some (l, r) → cs = l ++ '=' :: '>' :: r        (eq_of_splitArrow?)
-/

namespace EqSat

/-- Why a line is not a rule. -/
inductive LineError where
  | expectedName
  | missingArrow
  | badGuard (cause : Sexpr.Error) (text : String)
  | guardShape
  | unknownGuard (name : String)
  | pattern (cause : PatternError)
  | unbound (cause : UnboundError)
deriving Repr

def LineError.message : LineError → String
  | expectedName => "expected '@name:' before the rule"
  | missingArrow => "missing '=>'"
  | badGuard cause text => "bad guard: " ++ (TermError.sexpr cause text).message
  | guardShape => "guard must look like (name :var)"
  | unknownGuard name => "unknown guard " ++ Text.quoted name
  | pattern cause => cause.message
  | unbound cause => cause.message

/-- Why rules cannot be read. -/
inductive RuleError where
  | pattern (cause : PatternError)
  | line (cause : LineError) (source : String)
  | circularInclude (path : String)
deriving Repr

def RuleError.message : RuleError → String
  | pattern cause => cause.message
  | line cause source => cause.message ++ " in rule " ++ Text.quoted source
  | circularInclude path => "circular include of " ++ path

namespace Rule

/-! ## Reading -/

/-- What stands before the equation in a line, and the equation's text. -/
structure Header where
  name : String
  description : Option String
  body : List Char

/-- The equation after a colon: blanks are skipped, and it ends with the line. -/
def bodyAfterColon? (cs : List Char) : Option (List Char) :=
  let body := (cs.dropWhile Text.isBlank).takeWhile (· != '\n')
  if body.isEmpty then none else some body

/-- After the name: blanks, a quoted description that holds no quote, and a colon. -/
def describedBody? (cs : List Char) : Option (List Char × List Char) :=
  match cs.head?.any Text.isBlank, cs.dropWhile Text.isBlank with
  | true, '"' :: cs =>
    let description := cs.takeWhile (· != '"')
    match description.isEmpty, cs.dropWhile (· != '"') with
    | false, '"' :: ':' :: cs => (bodyAfterColon? cs).map fun body => (description, body)
    | _, _ => none
  | _, _ => none

def isNameChar (c : Char) : Bool := Text.isWord c || c == '-'

/-- Split off the name and the description of a line that has them. -/
def header? : List Char → Option Header
  | '@' :: cs =>
    let name := cs.takeWhile isNameChar
    let rest := cs.dropWhile isNameChar
    if name.isEmpty then none
    else match describedBody? rest, rest with
      | some (description, body), _ =>
        some ⟨String.ofList name, some (String.ofList description), body⟩
      | none, ':' :: cs => (bodyAfterColon? cs).map fun body => ⟨String.ofList name, none, body⟩
      | none, _ => none
  | cs => some ⟨"", none, cs⟩

/-- The two sides of the first arrow. -/
def splitArrow? : List Char → Option (List Char × List Char)
  | '=' :: '>' :: cs => some ([], cs)
  | c :: cs => (splitArrow? cs).map fun (l, r) => (c :: l, r)
  | [] => none

/-- The two sides of the first word `when` outside of parentheses.  `depth` counts the
parentheses open so far, and `apart` tells that a word can start here. -/
def splitWhen? (depth : Int) (apart : Bool) : List Char → Option (List Char × List Char)
  | [] => none
  | c :: cs =>
    if depth == 0 && apart && ['w', 'h', 'e', 'n'].isPrefixOf (c :: cs) &&
        (cs.drop 3).head?.all Text.isBlank then
      some ([], cs.drop 3)
    else
      let depth := if c == '(' then depth + 1 else if c == ')' then depth - 1 else depth
      (splitWhen? depth (Text.isBlank c) cs).map fun (l, r) => (c :: l, r)

/-- The condition and the variable of a guard's text. -/
def readGuard (source : String) : Except LineError Guard :=
  match Sexpr.read source with
  | .error cause => .error (.badGuard cause source)
  | .ok (.list [.atom name, .atom word]) =>
    match word.toList with
    | ':' :: var =>
      match Condition.ofName? name with
      | some condition => .ok ⟨condition, String.ofList var⟩
      | none => .error (.unknownGuard name)
    | _ => .error .guardShape
  | .ok _ => .error .guardShape

/-- The rule of an equation's text: the guard is read first, then the left side. -/
def ofHeader (h : Header) : Except LineError Rule := do
  let some (left, right) := splitArrow? h.body | .error .missingArrow
  let right := Text.strip right
  let (right, guard) ← match splitWhen? 0 true right with
    | some (right, guard) => do
      let guard ← readGuard (String.ofList (Text.strip guard))
      pure (Text.strip right, some guard)
    | none => pure (right, none)
  let lhs ← (Pattern.read Pattern.matchSigil (String.ofList (Text.strip left))).mapError .pattern
  let rhs ← (Pattern.read Pattern.buildSigil (String.ofList right)).mapError .pattern
  (make h.name lhs rhs guard h.description).mapError .unbound

/-- The rule in a line, if the line holds one. -/
def ofLine (source : String) : Except RuleError (Option Rule) :=
  let cs := Text.strip source.toList
  if cs.isEmpty || cs.head? == some '#' then .ok none
  else
    let rule : Except LineError Rule := match header? cs with
      | some h => ofHeader h
      | none => .error .expectedName
    match rule with
    | .ok r => .ok (some r)
    | .error cause => .error (.line cause (String.ofList cs))

/-! ## Writing -/

/-- The rule as a line that reads as the rule again. -/
def line (r : Rule) : String :=
  match r.description with
  | some description =>
    if description.isEmpty then "@" ++ r.name ++ ": " ++ r.text
    else "@" ++ r.name ++ " \"" ++ description ++ "\": " ++ r.text
  | none => "@" ++ r.name ++ ": " ++ r.text

/-! ## Lemmas -/

theorem eq_of_splitArrow? {cs l r : List Char} (h : splitArrow? cs = some (l, r)) :
    cs = l ++ '=' :: '>' :: r := by
  fun_induction splitArrow? cs generalizing l with
  | case1 cs => simp_all
  | case2 c cs _ ih =>
    obtain ⟨⟨l', r'⟩, h', he⟩ := Option.map_eq_some_iff.1 h
    cases he
    rw [ih h']
    rfl
  | case3 => simp at h

end Rule

end EqSat
