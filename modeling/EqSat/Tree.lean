import EqSat.Node
import EqSat.Sexpr

/-!
# Ground terms as trees

A ground term is a tree of operators over leaves.  Its s-expression has a list for every
operator, headed by the symbol, and a word for every leaf.  Reading checks every list
for an operator of the right arity and every word for a name that is free.
-/

namespace EqSat

/-- A ground term. -/
inductive Tree where
  | leaf (l : Leaf)
  | unary (op : UnaryOp) (t : Tree)
  | binary (op : BinaryOp) (t u : Tree)
deriving DecidableEq, Repr, Inhabited

/-- Why a text is not a ground term. -/
inductive TermError where
  | sexpr (cause : Sexpr.Error) (text : String)
  | expectedOperator (text : String)
  | unknownOperator (symbol : String) (count : Nat) (text : String)
  | reservedName (word : String)
  | notConstant (text : String)
deriving DecidableEq, Repr

namespace TermError

/-- The cause, then the text it was found in. -/
def message : TermError → String
  | sexpr cause text => cause.message ++ ": " ++ Text.quoted text
  | expectedOperator text => "expected an operator: " ++ Text.quoted text
  | unknownOperator symbol count text =>
    "unknown operator " ++ Text.quoted symbol ++ " with " ++ toString count ++ " argument(s): " ++
      Text.quoted text
  | reservedName word => "not a variable name: " ++ Text.quoted word
  | notConstant text => "not a constant: " ++ Text.quoted text

end TermError

/-- Read a constant, or say that the text is none. -/
def Constant.read (text : String) : Except TermError Constant :=
  match Constant.parse? text with
  | some c => .ok c
  | none => .error (.notConstant text)

/-- Read a leaf, or say that the name is reserved. -/
def Leaf.read (word : String) : Except TermError Leaf :=
  match Leaf.ofWord? word with
  | some l => .ok l
  | none => .error (.reservedName word)

namespace Tree

/-- Number of nodes. -/
def size : Tree → Nat
  | leaf _ => 1
  | unary _ t => 1 + t.size
  | binary _ t u => 1 + t.size + u.size

/-- The tree whose root is the node over the trees of its operands. -/
def ofNode : Node Tree → Tree
  | .leaf l => leaf l
  | .unary op t => unary op t
  | .binary op t u => binary op t u

def toSexpr : Tree → Sexpr
  | leaf l => .atom l.label
  | unary op t => .list [.atom op.symbol, t.toSexpr]
  | binary op t u => .list [.atom op.symbol, t.toSexpr, u.toSexpr]

def text (t : Tree) : String := t.toSexpr.text

instance : ToString Tree := ⟨text⟩

/-- The tree an s-expression stands for.  A list is checked before its operands, and the
operands from left to right; `source` is the text that errors quote. -/
def ofSexpr (source : String) : Sexpr → Except TermError Tree
  | .atom word => do return leaf (← Leaf.read word)
  | .list [.atom symbol, x] =>
    match UnaryOp.ofSymbol? symbol with
    | some op => do return unary op (← ofSexpr source x)
    | none => .error (.unknownOperator symbol 1 source)
  | .list [.atom symbol, x, y] =>
    match BinaryOp.ofSymbol? symbol with
    | some op => do
      let t ← ofSexpr source x
      let u ← ofSexpr source y
      return binary op t u
    | none => .error (.unknownOperator symbol 2 source)
  | .list (.atom symbol :: xs) => .error (.unknownOperator symbol xs.length source)
  | .list _ => .error (.expectedOperator source)
termination_by structural s => s

/-- Read a ground term from text. -/
def read (source : String) : Except TermError Tree :=
  match Sexpr.read source with
  | .ok s => ofSexpr source s
  | .error cause => .error (.sexpr cause source)

end Tree

end EqSat
