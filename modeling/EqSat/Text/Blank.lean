import EqSat.Text.Range

/-!
# Blanks

Blank characters separate tokens and are cut off the ends of lines, names and paths.

    strip cs starts and ends with a character that is not blank        (head_strip, getLast_strip)
-/

namespace EqSat.Text

/-- Tabs, line ends, separators and spaces of every width; the zero-width ones are not blank. -/
def blankRanges : List (Nat × Nat) :=
  [(0x9, 0xD), (0x1C, 0x20), (0x85, 0x85), (0xA0, 0xA0), (0x1680, 0x1680), (0x2000, 0x200A),
    (0x2028, 0x2029), (0x202F, 0x202F), (0x205F, 0x205F), (0x3000, 0x3000)]

def isBlank (c : Char) : Bool := inRanges blankRanges c

/-- Cut the blanks off the end. -/
def stripRight (cs : List Char) : List Char := (cs.reverse.dropWhile isBlank).reverse

/-- Cut the blanks off both ends. -/
def strip (cs : List Char) : List Char := stripRight (cs.dropWhile isBlank)

/-- A string without the blanks at its ends. -/
def stripped (s : String) : String := String.ofList (strip s.toList)

/-! ## Lemmas -/

theorem head_dropWhile_blank {cs : List Char} {c : Char}
    (h : (cs.dropWhile isBlank).head? = some c) : isBlank c = false := by
  have := List.head?_dropWhile_not isBlank cs
  rw [h] at this
  exact this

theorem stripRight_prefix (cs : List Char) : stripRight cs <+: cs := by
  have : cs.reverse.dropWhile isBlank <:+ cs.reverse := List.dropWhile_suffix isBlank
  rw [← List.reverse_prefix] at this
  simpa [stripRight] using this

theorem head_strip {cs : List Char} {c : Char} (h : (strip cs).head? = some c) :
    isBlank c = false := by
  obtain ⟨t, ht⟩ := stripRight_prefix (cs.dropWhile isBlank)
  have hp : (cs.dropWhile isBlank).head? = some c := by
    rw [← ht]
    simp only [strip] at h
    simp [h]
  exact head_dropWhile_blank hp

theorem getLast_strip {cs : List Char} {c : Char} (h : (strip cs).getLast? = some c) :
    isBlank c = false := by
  rw [strip, stripRight, List.getLast?_reverse] at h
  exact head_dropWhile_blank h

theorem dropWhile_isBlank_eq_self {cs : List Char} (h : ∀ c ∈ cs, isBlank c = false) :
    cs.dropWhile isBlank = cs := by
  cases cs with
  | nil => rfl
  | cons c cs => exact List.dropWhile_cons_of_neg (by simp [h c])

theorem strip_eq_self {cs : List Char} (h : ∀ c ∈ cs, isBlank c = false) : strip cs = cs := by
  rw [strip, stripRight, dropWhile_isBlank_eq_self h,
    dropWhile_isBlank_eq_self (fun c hc => h c (List.mem_reverse.1 hc)), List.reverse_reverse]

/-- Between the space and the next blank lie all the visible ASCII characters. -/
theorem isBlank_eq_false {c : Char} (h : 0x20 < c.toNat) (h' : c.toNat < 0x85) :
    isBlank c = false := by
  simp [isBlank, inRanges, blankRanges]
  omega

end EqSat.Text
