import EqSat.Node

/-!
# Constant folding

An operator applied to constants folds to a constant when its operands have the kinds it
takes.  Otherwise, and for a zero divisor, the value is unknown; nothing is an error.

    truncDiv a b = none ↔ b = 0        (truncDiv_eq_none)
-/

namespace EqSat

/-- Division rounding toward zero, unknown for a zero divisor. -/
def truncDiv (a b : Int) : Option Int := if b = 0 then none else some (a.tdiv b)

/-- The remainder of `truncDiv`, which takes the sign of the dividend. -/
def truncMod (a b : Int) : Option Int := if b = 0 then none else some (a.tmod b)

namespace UnaryOp

/-- The value of the operator on a constant.  A dereference depends on the store. -/
def fold? : UnaryOp → Constant → Option Constant
  | minus, .int n => some (.int (-n))
  | plus, .int n => some (.int n)
  | not, .bool b => some (.bool !b)
  | _, _ => none

end UnaryOp

namespace BinaryOp

/-- Arithmetic and the order relations. -/
def foldInt? : BinaryOp → Int → Int → Option Constant
  | add, a, b => some (.int (a + b))
  | sub, a, b => some (.int (a - b))
  | mul, a, b => some (.int (a * b))
  | div, a, b => (truncDiv a b).map .int
  | intDiv, a, b => (truncDiv a b).map .int
  | mod, a, b => (truncMod a b).map .int
  | lt, a, b => some (.bool (a < b))
  | le, a, b => some (.bool (a ≤ b))
  | gt, a, b => some (.bool (a > b))
  | ge, a, b => some (.bool (a ≥ b))
  | _, _, _ => none

/-- The connectives. -/
def foldBool? : BinaryOp → Bool → Bool → Option Constant
  | and, a, b => some (.bool (a && b))
  | or, a, b => some (.bool (a || b))
  | implies, a, b => some (.bool (!a || b))
  | iff, a, b => some (.bool (a == b))
  | _, _, _ => none

/-- The value of the operator on two constants.  Equality compares constants of any kind;
every other operator takes two operands of one kind. -/
def fold? : BinaryOp → Constant → Constant → Option Constant
  | eq, a, b => some (.bool (a == b))
  | ne, a, b => some (.bool (a != b))
  | op, .int a, .int b => op.foldInt? a b
  | op, .bool a, .bool b => op.foldBool? a b
  | _, _, _ => none

end BinaryOp

/-- The operator can fold at all. -/
def Operator.folds : Operator → Bool
  | unary .deref => false
  | _ => true

/-- The value of an operator on a list of constants, as many as it takes. -/
def Operator.fold? : Operator → List Constant → Option Constant
  | unary op, [a] => op.fold? a
  | binary op, [a, b] => op.fold? a b
  | _, _ => none

/-- The value of a node over values of its children, each of them perhaps unknown. -/
def Node.fold? : Node (Option Constant) → Option Constant
  | leaf (.const c) => some c
  | leaf (.var _) => none
  | unary op a => a.bind op.fold?
  | binary op a b => a.bind fun x => b.bind fun y => op.fold? x y

/-! ## Lemmas -/

theorem truncDiv_eq_none {a b : Int} : truncDiv a b = none ↔ b = 0 := by
  simp [truncDiv]

theorem truncMod_eq_none {a b : Int} : truncMod a b = none ↔ b = 0 := by
  simp [truncMod]

end EqSat
