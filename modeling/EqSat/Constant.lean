import EqSat.Text.Blank
import EqSat.Text.Quoted

/-!
# Constants

A constant is a Boolean or an unbounded integer, and no Boolean equals an integer.  The
order puts the Booleans before the integers; it serves sorted structures and has no
meaning in the language.

Integers are read and printed whatever their length.  Where an interpreter by default refuses
to convert between integers and texts of more than 4300 digits, that limit is taken to be off.

    parse? (text c) = some c        (parse?_text)
-/

namespace EqSat

/-- A Boolean or an integer. -/
inductive Constant where
  | bool (value : Bool)
  | int (value : Int)
deriving DecidableEq, Repr, Inhabited

namespace Constant

def zero : Constant := .int 0

def isBool : Constant → Bool
  | bool _ => true
  | int _ => false

def isInt (c : Constant) : Bool := !c.isBool

def toBool? : Constant → Option Bool
  | bool b => some b
  | int _ => none

def toInt? : Constant → Option Int
  | bool _ => none
  | int n => some n

/-- Only the integer zero is zero; `false` is not. -/
def isZero (c : Constant) : Bool := c == zero

/-! ## Order -/

/-- The place of a constant in the order: its kind first, then its value. -/
def sortKey : Constant → Nat × Int
  | bool b => (0, if b then 1 else 0)
  | int n => (1, n)

instance : Ord Constant where
  compare := compareLex (compareOn (·.sortKey.1)) (compareOn (·.sortKey.2))

instance : LT Constant := ltOfOrd

instance : LE Constant := leOfOrd

/-! ## Text -/

/-- `true`, `false`, or the decimal digits with a sign in front of a negative integer. -/
def text : Constant → String
  | bool true => "true"
  | bool false => "false"
  | int n => toString n

instance : ToString Constant := ⟨text⟩

/-- The constant as a record in listings of classes. -/
def record : Constant → String
  | bool true => "Constant(True)"
  | bool false => "Constant(False)"
  | int n => "Constant(" ++ toString n ++ ")"

/-- A non-empty run of ASCII digits. -/
def natOfDigits? (cs : List Char) : Option Nat :=
  if cs ≠ [] ∧ cs.all Char.isDigit then some (Nat.ofDigitChars 10 cs 0) else none

/-- A decimal integer: an optional sign, then ASCII digits, leading zeros allowed. -/
def intOfChars? : List Char → Option Int
  | '-' :: cs => (natOfDigits? cs).map Int.negOfNat
  | '+' :: cs => (natOfDigits? cs).map Int.ofNat
  | cs => (natOfDigits? cs).map Int.ofNat

/-- The two Boolean words in any case, or a decimal integer. -/
def ofChars? (cs : List Char) : Option Constant :=
  let lower := cs.map Char.toLower
  if lower = ['t', 'r', 'u', 'e'] then some (bool true)
  else if lower = ['f', 'a', 'l', 's', 'e'] then some (bool false)
  else (intOfChars? cs).map int

/-- Read a constant, blanks at the ends aside. -/
def parse? (s : String) : Option Constant := ofChars? (Text.strip s.toList)

/-! ## Lemmas -/

instance : Std.TransOrd Constant :=
  inferInstanceAs (Std.TransCmp (compareLex (compareOn fun c : Constant => c.sortKey.1)
    (compareOn fun c : Constant => c.sortKey.2)))

theorem sortKey_injective {a b : Constant} (h : a.sortKey = b.sortKey) : a = b := by
  rcases a with (_ | _) | _ <;> rcases b with (_ | _) | _ <;> simp_all [sortKey]

instance : Std.LawfulEqOrd Constant where
  eq_of_compare {a b} h := by
    have h' : (compare a.sortKey.1 b.sortKey.1).then (compare a.sortKey.2 b.sortKey.2) = .eq := h
    rw [Ordering.then_eq_eq, Std.compare_eq_iff_eq, Std.compare_eq_iff_eq] at h'
    exact sortKey_injective (Prod.ext h'.1 h'.2)

theorem natOfDigits?_toDigits (n : Nat) : natOfDigits? (Nat.toDigits 10 n) = some n := by
  have hd : (Nat.toDigits 10 n).all Char.isDigit = true := by
    rw [List.all_eq_true]
    exact fun c hc => Nat.isDigit_of_mem_toDigits (by decide) (by decide) hc
  rw [natOfDigits?, if_pos ⟨Nat.toDigits_ne_nil, hd⟩,
    Nat.ofDigitChars_toDigits (by decide) (by decide)]

theorem toList_toString_negSucc (n : Nat) :
    (toString (Int.negSucc n)).toList = '-' :: Nat.toDigits 10 (n + 1) := by
  show ("-" ++ (n + 1).repr).toList = _
  simp [Nat.toList_repr]

theorem toList_toString_ofNat (n : Nat) :
    (toString (Int.ofNat n)).toList = Nat.toDigits 10 n := by
  show n.repr.toList = _
  exact Nat.toList_repr

/-- A run of digits starts with no sign. -/
theorem intOfChars?_toDigits (n : Nat) : intOfChars? (Nat.toDigits 10 n) = some (n : Int) := by
  have hn := natOfDigits?_toDigits n
  have hd : ∀ c ∈ Nat.toDigits 10 n, c.isDigit = true :=
    fun c hc => Nat.isDigit_of_mem_toDigits (by decide) (by decide) hc
  generalize Nat.toDigits 10 n = cs at hn hd
  unfold intOfChars?
  split
  · exact absurd (hd '-' (by simp)) (by decide)
  · exact absurd (hd '+' (by simp)) (by decide)
  · simp [hn]

theorem intOfChars?_toString (n : Int) : intOfChars? (toString n).toList = some n := by
  cases n with
  | ofNat n => rw [toList_toString_ofNat, intOfChars?_toDigits]; rfl
  | negSucc n =>
    rw [toList_toString_negSucc]
    rw [intOfChars?, natOfDigits?_toDigits]
    rfl

theorem isDigit_of_natOfDigits? {cs : List Char} {n : Nat} (h : natOfDigits? cs = some n) :
    ∀ c ∈ cs, c.isDigit = true := by
  rw [natOfDigits?] at h
  split at h
  · next hcs => simpa using hcs.2
  · exact absurd h (by simp)

/-- An integer is written with digits and signs only. -/
theorem isDigit_or_sign_of_intOfChars? {cs : List Char} {n : Int} (h : intOfChars? cs = some n) :
    ∀ c ∈ cs, c.isDigit = true ∨ c = '-' ∨ c = '+' := by
  unfold intOfChars? at h
  split at h <;> obtain ⟨m, hm, -⟩ := Option.map_eq_some_iff.1 h <;>
    have := isDigit_of_natOfDigits? hm <;> grind

theorem toLower_ne_of_isDigit {c : Char} (h : c.isDigit = true) :
    c.toLower ≠ 't' ∧ c.toLower ≠ 'f' := by
  have hlow : c.toLower = c := by
    unfold Char.toLower
    refine dif_neg fun hu => ?_
    simp only [Char.isDigit, Bool.and_eq_true, decide_eq_true_eq] at h
    have h9 : c.val.toNat ≤ 57 := h.2
    have hA : 65 ≤ c.val.toNat := hu.1
    omega
  rw [hlow]
  constructor <;> rintro rfl <;> exact absurd h (by decide)

/-- A text that reads as an integer is none of the Boolean words. -/
theorem ofChars?_of_intOfChars? {cs : List Char} {n : Int} (h : intOfChars? cs = some n) :
    ofChars? cs = some (int n) := by
  have ne : ∀ c ∈ cs, c.toLower ≠ 't' ∧ c.toLower ≠ 'f' := by
    intro c hc
    rcases isDigit_or_sign_of_intOfChars? h c hc with hd | rfl | rfl
    · exact toLower_ne_of_isDigit hd
    · decide
    · decide
  unfold ofChars?
  cases cs with
  | nil => simp [h]
  | cons c cs => simp [h, (ne c (by simp)).1, (ne c (by simp)).2]

theorem ofChars?_text (c : Constant) : ofChars? c.text.toList = some c := by
  match c with
  | bool true => decide
  | bool false => decide
  | int n => exact ofChars?_of_intOfChars? (intOfChars?_toString n)

theorem isBlank_of_intOfChars? {cs : List Char} {n : Int} (h : intOfChars? cs = some n) :
    ∀ c ∈ cs, Text.isBlank c = false := by
  intro c hc
  rcases isDigit_or_sign_of_intOfChars? h c hc with hd | rfl | rfl
  · simp only [Char.isDigit, Bool.and_eq_true, decide_eq_true_eq] at hd
    have h9 : c.toNat ≤ 57 := hd.2
    have h0 : 48 ≤ c.toNat := hd.1
    exact Text.isBlank_eq_false (by omega) (by omega)
  · decide
  · decide

/-- A constant's text holds no blank. -/
theorem isBlank_text (c : Constant) : ∀ x ∈ c.text.toList, Text.isBlank x = false := by
  have word : ∀ b : Bool, ((bool b).text.toList.all fun x => !Text.isBlank x) = true := by decide
  intro x hx
  match c with
  | bool b => simpa using List.all_eq_true.1 (word b) x hx
  | int n => exact isBlank_of_intOfChars? (intOfChars?_toString n) x hx

theorem parse?_text (c : Constant) : parse? c.text = some c := by
  rw [parse?, Text.strip_eq_self (isBlank_text c), ofChars?_text]

end Constant

end EqSat
