import EqSat.Tree

/-!
# Patterns

A pattern is a term with variables, and a variable stands for any class of an e-graph.
In text a variable is its name behind a sigil, which tells variables from symbols: `?` on
the left of a rule, `:` on the right.

    vars p has no duplicates        (nodup_vars)
-/

namespace EqSat

/-- A term with pattern variables. -/
inductive Pattern where
  | hole (name : String)
  | leaf (l : Leaf)
  | unary (op : UnaryOp) (p : Pattern)
  | binary (op : BinaryOp) (p q : Pattern)
deriving DecidableEq, Repr, Inhabited

/-- Why a text is not a pattern. -/
inductive PatternError where
  | sexpr (cause : Sexpr.Error) (text : String)
  | expectedOperator (found : Sexpr)
  | unknownOperator (symbol : String) (count : Nat)
  | unnamedVariable (word : String)
  | wrongSigil (word : String) (sigil : String)
  | reservedName (word : String)
deriving Repr

namespace PatternError

def message : PatternError → String
  | sexpr cause text => cause.message ++ ": " ++ Text.quoted text
  | expectedOperator found => "expected an operator in " ++ found.text
  | unknownOperator symbol count =>
    "unknown operator " ++ Text.quoted symbol ++ " with " ++ toString count ++ " argument(s)"
  | unnamedVariable word => "empty variable name " ++ Text.quoted word
  | wrongSigil word sigil =>
    "variable " ++ Text.quoted word ++ " should be written " ++ sigil ++
      String.ofList (word.toList.drop 1) ++ " here"
  | reservedName word => (TermError.reservedName word).message

end PatternError

namespace Pattern

/-- The sigil of variables on the left of a rule. -/
def matchSigil : String := "?"

/-- The sigil of variables on the right of a rule. -/
def buildSigil : String := ":"

/-- Add the variables of a pattern to `names`, at the end and without repeats. -/
def varsFrom (names : List String) : Pattern → List String
  | hole x => if x ∈ names then names else names ++ [x]
  | leaf _ => names
  | unary _ p => p.varsFrom names
  | binary _ p q => q.varsFrom (p.varsFrom names)

/-- The variables in the order in which they first occur. -/
def vars (p : Pattern) : List String := p.varsFrom []

/-- A ground term as a pattern. -/
def ofTree : Tree → Pattern
  | .leaf l => leaf l
  | .unary op t => unary op (ofTree t)
  | .binary op t u => binary op (ofTree t) (ofTree u)

/-! ## Text -/

def toSexpr (sigil : String) : Pattern → Sexpr
  | hole x => .atom (sigil ++ x)
  | leaf l => .atom l.label
  | unary op p => .list [.atom op.symbol, p.toSexpr sigil]
  | binary op p q => .list [.atom op.symbol, p.toSexpr sigil, q.toSexpr sigil]

/-- The pattern with its variables behind `sigil`. -/
def text (sigil : String) (p : Pattern) : String := (p.toSexpr sigil).text

/-- The pattern of a word: behind the sigil the name of a variable, else a leaf.  A word
behind one of the two usual sigils is no leaf. -/
def ofWord (sigil word : String) : Except PatternError Pattern :=
  let cs := word.toList
  if sigil.toList.isPrefixOf cs then
    let name := cs.drop sigil.length
    if name.isEmpty then .error (.unnamedVariable word) else .ok (hole (String.ofList name))
  else if cs.head?.any fun c => c == '?' || c == ':' then .error (.wrongSigil word sigil)
  else match Leaf.ofWord? word with
    | some l => .ok (leaf l)
    | none => .error (.reservedName word)

/-- The pattern an s-expression stands for; a list is checked before its operands. -/
def ofSexpr (sigil : String) : Sexpr → Except PatternError Pattern
  | .atom word => ofWord sigil word
  | .list [.atom symbol, x] =>
    match UnaryOp.ofSymbol? symbol with
    | some op => do return unary op (← ofSexpr sigil x)
    | none => .error (.unknownOperator symbol 1)
  | .list [.atom symbol, x, y] =>
    match BinaryOp.ofSymbol? symbol with
    | some op => do
      let p ← ofSexpr sigil x
      let q ← ofSexpr sigil y
      return binary op p q
    | none => .error (.unknownOperator symbol 2)
  | .list (.atom symbol :: xs) => .error (.unknownOperator symbol xs.length)
  | .list xs => .error (.expectedOperator (.list xs))
termination_by structural s => s

/-- Read a pattern whose variables stand behind `sigil`. -/
def read (sigil source : String) : Except PatternError Pattern :=
  match Sexpr.read source with
  | .ok s => ofSexpr sigil s
  | .error cause => .error (.sexpr cause source)

/-! ## Lemmas -/

theorem nodup_varsFrom (p : Pattern) (names : List String) (h : names.Nodup) :
    (p.varsFrom names).Nodup := by
  induction p generalizing names with
  | hole x =>
    simp only [varsFrom]
    split
    · exact h
    · next hx =>
      rw [List.nodup_append]
      exact ⟨h, by simp, by rintro a ha b hb rfl; simp_all⟩
  | leaf l => exact h
  | unary op p ih => exact ih names h
  | binary op p q ihp ihq => exact ihq _ (ihp names h)

theorem nodup_vars (p : Pattern) : p.vars.Nodup := nodup_varsFrom p [] List.nodup_nil

end Pattern

end EqSat
