import EqSat.Pattern
import EqSat.Proofs.Printing.Sexpr
import Mathlib.Data.List.Induction

/-!
# Printed patterns

A pattern is readable if its variables are words and each of its leaves prints as a word that reads
as the leaf.  A readable pattern prints as a text that reads as the pattern, behind either sigil,
and what is read is readable.  Only a constant may print differently from how it was written.

    read_text                  reading what was printed
    readable_of_read           what is read is readable
    mem_atoms_of_read          the words in which what was read prints
-/

namespace EqSat

open Sexpr (IsWord Wordy isWordChar)

variable {c : Constant} {l : Leaf} {w source sigil : String} {s : Sexpr} {p : Pattern} {x : Char}

/-! ## Results that may be errors -/

section
variable {ε ε' α β : Type} {x : Except ε α}

theorem exists_of_bind_eq_ok {f : α → Except ε β} {b : β} (h : x >>= f = .ok b) :
    ∃ a, x = .ok a ∧ f a = .ok b := by
  cases x with
  | error e => cases h
  | ok a => exact ⟨a, rfl, h⟩

theorem eq_ok_of_mapError {f : ε → ε'} {a : α} (h : x.mapError f = .ok a) : x = .ok a := by
  cases x with
  | error e => cases h
  | ok b => cases h; rfl

theorem eq_ok_of_toOption {a : α} (h : x.toOption = some a) : x = .ok a := by
  cases x with
  | error e => cases h
  | ok a' => exact congrArg Except.ok (Option.some.inj h)

end

/-! ## Leaves -/

theorem Sexpr.isWordChar_of_isAlphanum (h : x.isAlphanum = true) : isWordChar x = true := by
  have hrange : 48 ≤ x.toNat ∧ x.toNat ≤ 122 := by
    delta Char.isAlphanum Char.isAlpha Char.isUpper Char.isLower Char.isDigit at h
    simp only [Bool.or_eq_true, Bool.and_eq_true, decide_eq_true_eq, ge_iff_le,
      UInt32.le_iff_toNat_le] at h
    have : x.toNat = x.val.toNat := rfl
    have : 'A'.val.toNat = 65 := rfl
    have : 'Z'.val.toNat = 90 := rfl
    have : 'a'.val.toNat = 97 := rfl
    have : 'z'.val.toNat = 122 := rfl
    have : '0'.val.toNat = 48 := rfl
    have : '9'.val.toNat = 57 := rfl
    omega
  have ho : x ≠ '(' := by rintro rfl; exact absurd hrange.1 (by decide)
  have hc : x ≠ ')' := by rintro rfl; exact absurd hrange.1 (by decide)
  simp [isWordChar, Text.isBlank_eq_false (by omega) (by omega : x.toNat < 0x85), ho, hc]

/-- Constants are written with letters, digits and signs. -/
theorem Constant.isAlphanum_or_sign (hx : x ∈ c.text.toList) :
    x.isAlphanum = true ∨ x = '-' ∨ x = '+' := by
  have word : ∀ b : Bool, (bool b).text.toList.all Char.isAlphanum = true := by decide
  match c with
  | bool b => exact .inl (List.all_eq_true.1 (word b) x hx)
  | int n =>
    rcases isDigit_or_sign_of_intOfChars? (intOfChars?_toString n) x hx with hd | hs
    · exact .inl (by simp [Char.isAlphanum, hd])
    · exact .inr hs

theorem Constant.isWord_text (c : Constant) : IsWord c.text.toList := by
  constructor
  · intro he
    have hp := ofChars?_text c
    rw [he] at hp
    simp [ofChars?, intOfChars?, natOfDigits?] at hp
  · intro x hx
    rcases isAlphanum_or_sign hx with h | rfl | rfl
    · exact Sexpr.isWordChar_of_isAlphanum h
    · decide
    · decide

/-- A word that starts with no sigil. -/
def Unmarked (w : String) : Prop := ∀ x ∈ w.toList.head?, x ≠ '?' ∧ x ≠ ':'

theorem unmarked_iff :
    Unmarked w ↔ w.toList.head? ≠ some '?' ∧ w.toList.head? ≠ some ':' := by
  unfold Unmarked
  cases w.toList.head? <;> simp

instance : Decidable (Unmarked w) := decidable_of_iff _ unmarked_iff.symm

/-- The leaf prints as a word that reads as the leaf. -/
structure Leaf.Readable (l : Leaf) : Prop where
  isWord : IsWord l.label.toList
  unmarked : Unmarked l.label
  ofWord : ofWord? l.label = some l

namespace Leaf

theorem readable_const (c : Constant) : (const c).Readable where
  isWord := c.isWord_text
  unmarked x hx := by
    rcases Constant.isAlphanum_or_sign (List.mem_of_mem_head? hx) with h | rfl | rfl
    · constructor <;> rintro rfl <;> exact absurd h (by decide)
    · decide
    · decide
  ofWord := ofWord?_label_const c

theorem eq_of_ofWord? (h : ofWord? w = some l) : l = var w ∨ ∃ c, l = const c := by
  rw [ofWord?] at h
  split at h
  · next c _ => exact .inr ⟨c, (Option.some.inj h).symm⟩
  · split at h
    · cases h
    · exact .inl (Option.some.inj h).symm

theorem readable_of_ofWord? (h : ofWord? w = some l) (hw : IsWord w.toList) (hm : Unmarked w) :
    l.Readable := by
  rcases eq_of_ofWord? h with rfl | ⟨c, rfl⟩
  · exact ⟨hw, hm, h⟩
  · exact readable_const c

end Leaf

/-! ## Operators -/

theorem UnaryOp.isWord_symbol (op : UnaryOp) : IsWord op.symbol.toList := by
  cases op <;> decide

theorem BinaryOp.isWord_symbol (op : BinaryOp) : IsWord op.symbol.toList := by
  cases op <;> decide

namespace Pattern

/-! ## Patterns -/

/-- One of the two signs that tell a variable of a rule. -/
def IsSigil (sigil : String) : Prop := sigil = matchSigil ∨ sigil = buildSigil

/-- Variables are words, and leaves print as words that read as them. -/
def Readable : Pattern → Prop
  | hole x => IsWord x.toList
  | leaf l => l.Readable
  | unary _ p => p.Readable
  | binary _ p q => p.Readable ∧ q.Readable

/-- The variables of a readable pattern are words. -/
theorem isWord_of_mem_varsFrom {names : List String} (h : p.Readable) {x : String}
    (hx : x ∈ p.varsFrom names) : x ∈ names ∨ IsWord x.toList := by
  induction p generalizing names with
  | hole y =>
    rw [varsFrom] at hx
    split at hx
    · exact .inl hx
    · rcases List.mem_append.1 hx with hx | hx
      · exact .inl hx
      · exact .inr (List.mem_singleton.1 hx ▸ h)
  | leaf l => exact .inl hx
  | unary op p ih => exact ih h hx
  | binary op p q ihp ihq =>
    rcases ihq h.2 hx with hx | hx
    · exact ihp h.1 hx
    · exact .inr hx

theorem isWord_of_mem_vars (h : p.Readable) {x : String} (hx : x ∈ p.vars) : IsWord x.toList :=
  (isWord_of_mem_varsFrom h hx).resolve_left List.not_mem_nil

/-- A sigil is one character that may stand in a word. -/
theorem IsSigil.toList (h : IsSigil sigil) :
    ∃ m, sigil.toList = [m] ∧ isWordChar m = true ∧ (m = '?' ∨ m = ':') := by
  rcases h with rfl | rfl
  · exact ⟨'?', by decide⟩
  · exact ⟨':', by decide⟩

/-! ## Printing -/

theorem wordy_toSexpr (hs : IsSigil sigil) (h : p.Readable) : (p.toSexpr sigil).Wordy := by
  induction p with
  | hole x =>
    obtain ⟨m, hm, hword, -⟩ := hs.toList
    have hx : IsWord x.toList := h
    rw [toSexpr, Sexpr.wordy_atom, String.toList_append, hm]
    exact ⟨by simp, List.forall_mem_cons.2 ⟨hword, hx.2⟩⟩
  | leaf l => exact Sexpr.wordy_atom.2 h.isWord
  | unary op p ih =>
    simp [toSexpr, Sexpr.wordy_list, Sexpr.wordy_atom, op.isWord_symbol, ih h]
  | binary op p q ihp ihq =>
    simp [toSexpr, Sexpr.wordy_list, Sexpr.wordy_atom, op.isWord_symbol, ihp h.1, ihq h.2]

theorem ofWord_hole (hs : IsSigil sigil) {x : String} (hx : x.toList ≠ []) :
    ofWord sigil (sigil ++ x) = .ok (hole x) := by
  obtain ⟨m, hm, -⟩ := hs.toList
  have hlen : sigil.length = 1 := by rw [← String.length_toList, hm]; rfl
  simp [ofWord, hm, hlen, hx]

/-- A word that starts with no sigil is a leaf, or a name that is not free. -/
theorem ofWord_of_unmarked (hs : IsSigil sigil) (hw : Unmarked w) :
    ofWord sigil w = match Leaf.ofWord? w with
      | some l => .ok (leaf l)
      | none => .error (.reservedName w) := by
  have hprefix : sigil.toList.isPrefixOf w.toList = false := by
    obtain ⟨m, hm, -, hsig⟩ := hs.toList
    rw [hm]
    cases hcs : w.toList with
    | nil => rfl
    | cons c cs =>
      obtain ⟨hq, hb⟩ := hw c (by rw [hcs]; rfl)
      have hne : m ≠ c := by rintro rfl; exact hsig.elim hq hb
      rw [List.isPrefixOf_cons_cons]
      simp [hne]
  have hhead : (w.toList.head?.any fun c => c == '?' || c == ':') = false := by
    rw [Option.any_eq_false]
    intro c hc
    simp [hw c hc]
  cases hl : Leaf.ofWord? w <;> simp [ofWord, hprefix, hhead, hl]

theorem ofWord_leaf (hs : IsSigil sigil) (hl : l.Readable) :
    ofWord sigil l.label = .ok (leaf l) := by
  rw [ofWord_of_unmarked hs hl.unmarked, hl.ofWord]

/-- Behind either sigil, a readable pattern is what its s-expression stands for. -/
theorem ofSexpr_toSexpr (hs : IsSigil sigil) (h : p.Readable) :
    ofSexpr sigil (p.toSexpr sigil) = .ok p := by
  induction p with
  | hole x => exact ofWord_hole hs h.1
  | leaf l => exact ofWord_leaf hs h
  | unary op p ih =>
    simp only [toSexpr, ofSexpr, UnaryOp.ofSymbol?_symbol, ih h]
    rfl
  | binary op p q ihp ihq =>
    simp only [toSexpr, ofSexpr, BinaryOp.ofSymbol?_symbol, ihp h.1, ihq h.2]
    rfl

/-- What was printed reads as what it was printed from. -/
theorem read_text (hs : IsSigil sigil) (h : p.Readable) : read sigil (p.text sigil) = .ok p := by
  rw [read, text, Sexpr.read_text (wordy_toSexpr hs h)]
  exact ofSexpr_toSexpr hs h

/-! ## Reading -/

theorem readable_of_ofWord (hs : IsSigil sigil) (h : ofWord sigil w = .ok p)
    (hw : IsWord w.toList) : p.Readable := by
  obtain ⟨m, hm, -⟩ := hs.toList
  have hlen : sigil.length = 1 := by rw [← String.length_toList, hm]; rfl
  simp only [ofWord, hm, hlen] at h
  split at h
  · split at h
    · cases h
    · next hne =>
      cases h
      exact ⟨by simpa using hne, by simpa using fun c hc => hw.2 c (List.mem_of_mem_tail hc)⟩
  · split at h
    · cases h
    · next hhead =>
      split at h
      · next l hl =>
        cases h
        refine Leaf.readable_of_ofWord? hl hw fun x hx => ?_
        rw [hx] at hhead
        simpa using hhead
      · cases h

/-- The pattern of a word prints as the word, unless it is a constant. -/
theorem toSexpr_of_ofWord (hs : IsSigil sigil) (h : ofWord sigil w = .ok p) :
    p.toSexpr sigil = .atom w ∨ ∃ c, p = leaf (.const c) := by
  obtain ⟨m, hm, -⟩ := hs.toList
  have hlen : sigil.length = 1 := by rw [← String.length_toList, hm]; rfl
  simp only [ofWord, hm, hlen] at h
  split at h
  · next hpre =>
    split at h
    · cases h
    · cases h
      obtain ⟨cs, hcs⟩ := List.isPrefixOf_iff_prefix.1 hpre
      have : sigil ++ String.ofList (w.toList.drop 1) = w := by
        rw [String.ext_iff, String.toList_append, hm, String.toList_ofList, ← hcs]
        rfl
      exact .inl (by rw [toSexpr, this])
  · split at h
    · cases h
    · split at h
      · next l hl =>
        cases h
        rcases Leaf.eq_of_ofWord? hl with rfl | ⟨c, rfl⟩
        · exact .inl rfl
        · exact .inr ⟨c, rfl⟩
      · cases h

/-- What an s-expression of words stands for is readable, and prints in the words of the
s-expression and of constants. -/
theorem readable_of_ofSexpr (hs : IsSigil sigil) (h : ofSexpr sigil s = .ok p) (hw : s.Wordy) :
    p.Readable ∧ ∀ w ∈ (p.toSexpr sigil).atoms, w ∈ s.atoms ∨ ∃ c : Constant, w = c.text := by
  fun_induction ofSexpr sigil s generalizing p with
  | case1 word =>
    refine ⟨readable_of_ofWord hs h (Sexpr.wordy_atom.1 hw), fun w hmem => ?_⟩
    rcases toSexpr_of_ofWord hs h with ha | ⟨c, rfl⟩
    · exact .inl (ha ▸ hmem)
    · exact .inr ⟨c, by simpa [toSexpr, Sexpr.atoms, Leaf.label] using hmem⟩
  | case2 symbol x op hop ih =>
    obtain ⟨q, hq, h⟩ := exists_of_bind_eq_ok h
    cases h
    obtain ⟨hr, ha⟩ := ih hq (Sexpr.wordy_list.1 hw x (by simp))
    refine ⟨hr, fun w hmem => ?_⟩
    simp only [toSexpr, Sexpr.atoms, Sexpr.itemAtoms, UnaryOp.symbol_of_ofSymbol? hop,
      List.mem_append] at hmem ⊢
    grind
  | case4 symbol x y op hop ihx ihy =>
    obtain ⟨q, hq, h⟩ := exists_of_bind_eq_ok h
    obtain ⟨r, hr, h⟩ := exists_of_bind_eq_ok h
    cases h
    obtain ⟨hqr, hqa⟩ := ihx hq (Sexpr.wordy_list.1 hw x (by simp))
    obtain ⟨hrr, hra⟩ := ihy hr (Sexpr.wordy_list.1 hw y (by simp))
    refine ⟨⟨hqr, hrr⟩, fun w hmem => ?_⟩
    simp only [toSexpr, Sexpr.atoms, Sexpr.itemAtoms, BinaryOp.symbol_of_ofSymbol? hop,
      List.mem_append] at hmem ⊢
    grind
  | _ => cases h

/-- What is read is readable, and prints in parts of the text and in constants. -/
theorem readable_of_read (hs : IsSigil sigil) (h : read sigil source = .ok p) :
    p.Readable ∧ ∀ w ∈ (p.toSexpr sigil).atoms,
      w.toList <:+: source.toList ∨ ∃ c : Constant, w = c.text := by
  rw [read] at h
  split at h
  · next s hread =>
    obtain ⟨hw, hin⟩ := Sexpr.wordy_of_read hread
    obtain ⟨hr, ha⟩ := readable_of_ofSexpr hs h hw
    exact ⟨hr, fun w hmem => (ha w hmem).imp_left (hin w)⟩
  · cases h

/-- Only a word reads as a variable of a term. -/
theorem eq_of_read_var {x : String} (hs : IsSigil sigil)
    (h : read sigil source = .ok (leaf (.var x))) :
    ∃ front back, (∀ c ∈ front, Text.isBlank c = true) ∧ (∀ c ∈ back, Text.isBlank c = true) ∧
      source.toList = front ++ x.toList ++ back := by
  rw [read] at h
  split at h
  · next s hread =>
    generalize hp : leaf (.var x) = p at h
    fun_induction ofSexpr sigil s with
    | case1 word =>
      subst hp
      obtain rfl : x = word := by
        rcases toSexpr_of_ofWord hs h with ha | ⟨c, hc⟩
        · exact Sexpr.atom.inj ha
        · cases hc
      exact Sexpr.eq_of_read_atom hread
    | case2 symbol y op hop =>
      obtain ⟨q, -, h⟩ := exists_of_bind_eq_ok h
      cases hp.trans (Except.ok.inj h).symm
    | case4 symbol y z op hop =>
      obtain ⟨q, -, h⟩ := exists_of_bind_eq_ok h
      obtain ⟨r, -, h⟩ := exists_of_bind_eq_ok h
      cases hp.trans (Except.ok.inj h).symm
    | _ => cases h
  · cases h

end Pattern

end EqSat
