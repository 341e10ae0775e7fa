import EqSat.Constant
import EqSat.Operator
import EqSat.Text.Digit

/-!
# Leaves

A leaf of a term is a constant or a variable.  A word that reads as a constant is that
constant; of the others, those that could be taken for an operator, a pattern variable or
a number are refused as names.

    ofWord? (label (const c)) = some (const c)        (ofWord?_label_const)
-/

namespace EqSat

/-- A constant or a variable symbol. -/
inductive Leaf where
  | const (value : Constant)
  | var (symbol : String)
deriving DecidableEq, Repr, Inhabited

namespace Leaf

/-- How the leaf prints. -/
def label : Leaf → String
  | const c => c.text
  | var s => s

/-- An optional sign, then a digit of any script. -/
def looksNumeric : List Char → Bool
  | [] => false
  | c :: cs =>
    if c == '+' || c == '-' then cs.head?.any Text.isDigit else Text.isDigit c

/-- A word that no variable may be named by: an operator's symbol, a pattern variable, or
something that looks like a number. -/
def isReserved (s : String) : Bool :=
  Operator.isSymbol s || s.toList.head?.any (fun c => c == '?' || c == ':') ||
    looksNumeric s.toList

/-- The leaf a word stands for: a constant if it reads as one, else the variable of that
name; nothing if the name is reserved. -/
def ofWord? (s : String) : Option Leaf :=
  match Constant.parse? s with
  | some c => some (const c)
  | none => if isReserved s then none else some (var s)

/-! ## Order -/

/-- The place of a leaf in the order of leaves: constants first. -/
def sortKey : Leaf → (Nat × Int) × String
  | const c => (c.sortKey, "")
  | var s => ((2, 0), s)

instance : Ord Leaf where
  compare := compareLex (compareOn (·.sortKey.1.1))
    (compareLex (compareOn (·.sortKey.1.2)) (compareOn (·.sortKey.2)))

/-! ## Lemmas -/

instance : Std.TransOrd Leaf :=
  inferInstanceAs (Std.TransCmp (compareLex (compareOn fun l : Leaf => l.sortKey.1.1)
    (compareLex (compareOn fun l : Leaf => l.sortKey.1.2)
      (compareOn fun l : Leaf => l.sortKey.2))))

theorem sortKey_injective {a b : Leaf} (h : a.sortKey = b.sortKey) : a = b := by
  rcases a with (⟨_ | _⟩ | _) | _ <;> rcases b with (⟨_ | _⟩ | _) | _ <;>
    simp_all [sortKey, Constant.sortKey]

instance : Std.LawfulEqOrd Leaf where
  eq_of_compare {a b} h := by
    have h' : (compare a.sortKey.1.1 b.sortKey.1.1).then
        ((compare a.sortKey.1.2 b.sortKey.1.2).then (compare a.sortKey.2 b.sortKey.2)) = .eq := h
    simp only [Ordering.then_eq_eq, Std.compare_eq_iff_eq] at h'
    exact sortKey_injective (Prod.ext (Prod.ext h'.1 h'.2.1) h'.2.2)

/-- Writing a constant and reading the word gives the constant back. -/
theorem ofWord?_label_const (c : Constant) : ofWord? (label (const c)) = some (const c) := by
  simp [ofWord?, label, Constant.parse?_text]

end Leaf

end EqSat
