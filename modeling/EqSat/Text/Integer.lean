import EqSat.Text.Blank
import EqSat.Text.Digit

/-!
# Integers as people type them

An integer is a sign, if any, and decimal digits of any script; single underscores may
stand between digits, and blanks around the whole.  The four separator controls are no
blanks here.
-/

namespace EqSat.Text

/-- Blanks around an integer: all but the separator controls. -/
def isPadding (c : Char) : Bool := isBlank c && !(0x1C ≤ c.toNat && c.toNat ≤ 0x1F)

/-- Digits after at least one digit, the digits so far having the value `n`. -/
def digitsAfter? (n : Nat) : List Char → Option Nat
  | [] => some n
  | '_' :: c :: cs => (decimalValue? c).bind fun d => digitsAfter? (10 * n + d) cs
  | c :: cs => (decimalValue? c).bind fun d => digitsAfter? (10 * n + d) cs

/-- A non-empty run of digits, with single underscores between them. -/
def natOfTyped? : List Char → Option Nat
  | [] => none
  | c :: cs => (decimalValue? c).bind fun d => digitsAfter? d cs

/-- The integer that a text holds. -/
def integer? (s : String) : Option Int :=
  let cs := (s.toList.dropWhile isPadding).reverse.dropWhile isPadding |>.reverse
  match cs with
  | '-' :: cs => (natOfTyped? cs).map Int.negOfNat
  | '+' :: cs => (natOfTyped? cs).map Int.ofNat
  | cs => (natOfTyped? cs).map Int.ofNat

end EqSat.Text
