/-!
# Operators

An operator is known by its symbol and its number of operands: `-` is negation on one
operand and subtraction on two.

    ofSymbol? op.symbol = some op        (UnaryOp.ofSymbol?_symbol, BinaryOp.ofSymbol?_symbol)
-/

namespace EqSat

/-- The operators on one operand. -/
inductive UnaryOp where
  | minus
  | plus
  | deref
  | not
deriving DecidableEq, Repr, Inhabited

/-- The operators on two operands. -/
inductive BinaryOp where
  | add
  | sub
  | mul
  | div
  | intDiv
  | mod
  | and
  | or
  | implies
  | iff
  | eq
  | ne
  | lt
  | le
  | gt
  | ge
deriving DecidableEq, Repr, Inhabited

namespace UnaryOp

def all : List UnaryOp := [minus, plus, deref, not]

def symbol : UnaryOp → String
  | minus => "-"
  | plus => "+"
  | deref => "^"
  | not => "not"

/-- Dereference follows its operand; the others come first. -/
def followsOperand : UnaryOp → Bool
  | deref => true
  | _ => false

def ofSymbol? (s : String) : Option UnaryOp := all.find? (·.symbol == s)

end UnaryOp

namespace BinaryOp

def all : List BinaryOp :=
  [add, sub, mul, div, intDiv, mod, and, or, implies, iff, eq, ne, lt, le, gt, ge]

/-- Both `/` and `div` are integer division rounding toward zero. -/
def symbol : BinaryOp → String
  | add => "+"
  | sub => "-"
  | mul => "*"
  | div => "/"
  | intDiv => "div"
  | mod => "mod"
  | and => "and"
  | or => "or"
  | implies => "implies"
  | iff => "iff"
  | eq => "="
  | ne => "<>"
  | lt => "<"
  | le => "<="
  | gt => ">"
  | ge => ">="

def ofSymbol? (s : String) : Option BinaryOp := all.find? (·.symbol == s)

end BinaryOp

/-- An operator with its number of operands. -/
inductive Operator where
  | unary (op : UnaryOp)
  | binary (op : BinaryOp)
deriving DecidableEq, Repr

namespace Operator

def symbol : Operator → String
  | unary op => op.symbol
  | binary op => op.symbol

def arity : Operator → Nat
  | unary _ => 1
  | binary _ => 2

/-- The operator with this symbol and this many operands. -/
def lookup? (s : String) : Nat → Option Operator
  | 1 => (UnaryOp.ofSymbol? s).map unary
  | 2 => (BinaryOp.ofSymbol? s).map binary
  | _ => none

/-- The word is the symbol of an operator, whatever its arity. -/
def isSymbol (s : String) : Bool :=
  (UnaryOp.ofSymbol? s).isSome || (BinaryOp.ofSymbol? s).isSome

end Operator

/-! ## Lemmas -/

theorem UnaryOp.ofSymbol?_symbol (op : UnaryOp) : ofSymbol? op.symbol = some op := by
  cases op <;> decide

theorem BinaryOp.ofSymbol?_symbol (op : BinaryOp) : ofSymbol? op.symbol = some op := by
  cases op <;> decide

theorem UnaryOp.symbol_of_ofSymbol? {s : String} {op : UnaryOp} (h : ofSymbol? s = some op) :
    op.symbol = s := by
  have := List.find?_some h
  simpa using this

theorem BinaryOp.symbol_of_ofSymbol? {s : String} {op : BinaryOp} (h : ofSymbol? s = some op) :
    op.symbol = s := by
  have := List.find?_some h
  simpa using this

end EqSat
