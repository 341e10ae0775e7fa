import EqSat.Sexpr
import Mathlib.Data.List.Infix

/-!
# Printed s-expressions

An s-expression whose atoms are words prints as a text that reads as the s-expression: a blank or a
parenthesis stands behind every atom, so the text falls into the tokens that were printed.  The
atoms of an s-expression that was read are words, and parts of its text.  Printing can be done in a
loop, over a stack of what is still to be written.

    render_eq                    the loop that prints writes the text
    tokenizeFrom_textOnto        the tokens of a printed text
    read_text                    reading what was printed
    isWord_of_read               the atoms of what was read
    eq_of_tokenizeFrom           a text with one token is a word between blanks
-/

namespace EqSat.Sexpr

/-- The characters of an atom: one run, and not an empty one. -/
def IsWord (cs : List Char) : Prop := cs ≠ [] ∧ ∀ c ∈ cs, isWordChar c = true

instance (cs : List Char) : Decidable (IsWord cs) :=
  decidable_of_iff (cs ≠ [] ∧ cs.all isWordChar = true) (by rw [List.all_eq_true, IsWord])

/-- A word in front of the text ends where the text starts. -/
def Apart (cs : List Char) : Prop := ∀ c ∈ cs.head?, isWordChar c = false

mutual

/-- The atoms in the order of the text. -/
def atoms : Sexpr → List String
  | atom w => [w]
  | list items => itemAtoms items

def itemAtoms : List Sexpr → List String
  | [] => []
  | x :: xs => x.atoms ++ itemAtoms xs

end

/-- All atoms are words. -/
def Wordy (s : Sexpr) : Prop := ∀ w ∈ s.atoms, IsWord w.toList

variable {s : Sexpr} {xs : List Sexpr} {cs rest word : List Char} {c : Char} {w source : String}
  {ts : List Token}

theorem mem_itemAtoms : w ∈ itemAtoms xs ↔ ∃ x ∈ xs, w ∈ x.atoms := by
  induction xs with
  | nil => simp [itemAtoms]
  | cons x xs ih => simp [itemAtoms, ih]

theorem wordy_atom : Wordy (atom w) ↔ IsWord w.toList := by simp [Wordy, atoms]

theorem wordy_list : Wordy (list xs) ↔ ∀ x ∈ xs, Wordy x := by
  simp only [Wordy, atoms, mem_itemAtoms]
  exact ⟨fun h x hx w hw => h w ⟨x, hx, hw⟩, fun h w ⟨x, hx, hw⟩ => h x hx w hw⟩

theorem isBlank_of_isWordChar (h : isWordChar c = true) : Text.isBlank c = false := by
  simp only [isWordChar, Bool.and_eq_true, Bool.not_eq_true'] at h
  exact h.1.1

theorem apart_nil : Apart [] := by simp [Apart]

theorem apart_cons (h : isWordChar c = false) : Apart (c :: cs) := by simpa [Apart] using h

/-! ## Printing -/

mutual

/-- The text in front of `rest` is the text, then `rest`. -/
theorem textOnto_append (s : Sexpr) (cs rest : List Char) :
    s.textOnto (cs ++ rest) = s.textOnto cs ++ rest := by
  match s with
  | atom w => simp [textOnto]
  | list [] => simp [textOnto]
  | list (x :: xs) =>
    rw [textOnto, textOnto, ← List.cons_append, itemTextOnto_append xs, textOnto_append x]
    rfl

theorem itemTextOnto_append (xs : List Sexpr) (cs rest : List Char) :
    itemTextOnto xs (cs ++ rest) = itemTextOnto xs cs ++ rest := by
  match xs with
  | [] => rfl
  | x :: xs =>
    rw [itemTextOnto, itemTextOnto, itemTextOnto_append xs, textOnto_append x]
    rfl

end

theorem textOnto_eq (s : Sexpr) (rest : List Char) : s.textOnto rest = s.text.toList ++ rest := by
  have h := textOnto_append s [] rest
  rw [List.nil_append] at h
  rw [h, text, String.toList_ofList]

/-! ## The loop -/

/-- What waits on the stack to be written. -/
inductive Part where
  | close
  | space
  | item (s : Sexpr)

/-- The items of a list, with a space between them. -/
def parts : List Sexpr → List Part
  | [] => []
  | x :: xs => .item x :: xs.flatMap fun y => [.space, .item y]

mutual

/-- What an s-expression weighs, and its items with a space to each of them. -/
def weight : Sexpr → Nat
  | atom _ => 1
  | list items => 2 + itemWeight items

def itemWeight : List Sexpr → Nat
  | [] => 0
  | x :: xs => 1 + weight x + itemWeight xs

end

namespace Part

def weight : Part → Nat
  | item s => s.weight
  | _ => 1

/-- The weight of a stack. -/
def load : List Part → Nat
  | [] => 0
  | p :: stack => p.weight + load stack

theorem load_append (stack stack' : List Part) :
    load (stack ++ stack') = load stack + load stack' := by
  induction stack with
  | nil => simp [load]
  | cons p stack ih => rw [List.cons_append, load, load, ih, Nat.add_assoc]

theorem load_spaced (xs : List Sexpr) :
    load (xs.flatMap fun y => [.space, .item y]) = itemWeight xs := by
  induction xs with
  | nil => rfl
  | cons x xs ih =>
    rw [List.flatMap_cons, load_append, ih, itemWeight]
    simp [load, weight]

/-- A list outweighs its parts and the parenthesis behind them. -/
theorem load_parts_lt (xs : List Sexpr) : load (parts xs) + 1 < (list xs).weight := by
  rw [Sexpr.weight]
  cases xs with
  | nil => exact Nat.le_refl 2
  | cons x xs =>
    rw [parts, load, load_spaced, itemWeight, weight]
    omega

/-- Write the parts behind `out`, a list part by part. -/
def render : List Part → String → String
  | [], out => out
  | .close :: stack, out => render stack (out ++ ")")
  | .space :: stack, out => render stack (out ++ " ")
  | .item (.list xs) :: stack, out => render (parts xs ++ .close :: stack) (out ++ "(")
  | .item (.atom w) :: stack, out => render stack (out ++ w)
termination_by stack => load stack
decreasing_by
  · simp [load, weight]
  · simp [load, weight]
  · have := load_parts_lt xs
    simp only [load_append, load, weight]
    omega
  · simp [load, weight, Sexpr.weight]

/-- The text of a part in front of `rest`. -/
def onto : Part → List Char → List Char
  | close, rest => ')' :: rest
  | space, rest => ' ' :: rest
  | item s, rest => s.textOnto rest

theorem foldr_onto_spaced (xs : List Sexpr) (rest : List Char) :
    (xs.flatMap fun y => [Part.space, .item y]).foldr onto rest = itemTextOnto xs rest := by
  induction xs with
  | nil => rfl
  | cons x xs ih => rw [itemTextOnto, ← ih]; rfl

theorem foldr_onto_parts (xs : List Sexpr) (rest : List Char) :
    '(' :: (parts xs).foldr onto (')' :: rest) = (list xs).textOnto rest := by
  cases xs with
  | nil => rfl
  | cons x xs =>
    rw [textOnto, ← foldr_onto_spaced]
    rfl

theorem toList_render (stack : List Part) (out : String) :
    (render stack out).toList = out.toList ++ stack.foldr onto [] := by
  fun_induction render stack out with
  | case1 out => simp
  | case2 stack out ih => simp [ih, onto]
  | case3 stack out ih => simp [ih, onto]
  | case4 xs stack out ih =>
    rw [ih, List.foldr_append, List.foldr_cons, List.foldr_cons, onto, onto, ← foldr_onto_parts]
    simp
  | case5 w stack out ih => simp [ih, onto, textOnto]

end Part

/-- **The loop** writes the text. -/
theorem render_eq (s : Sexpr) : Part.render [.item s] "" = s.text := by
  rw [← String.toList_inj, Part.toList_render]
  simp [Part.onto, text]

/-! ## Reading what was printed -/

/-- What stands behind an item is the space of the next one or the closing parenthesis. -/
theorem apart_itemTextOnto : Apart (itemTextOnto xs (')' :: cs)) := by
  cases xs with
  | nil => exact apart_cons (by decide)
  | cons x xs => exact apart_cons (by decide)

theorem tokenizeFrom_word (hcs : ∀ c ∈ cs, isWordChar c = true) :
    tokenizeFrom word (cs ++ rest) = tokenizeFrom (cs.reverse ++ word) rest := by
  induction cs generalizing word with
  | nil => rfl
  | cons c cs ih =>
    have hc := hcs c List.mem_cons_self
    simp only [isWordChar, Bool.and_eq_true, Bool.not_eq_true', bne_iff_ne] at hc
    rw [List.cons_append, tokenizeFrom, if_neg (by simpa using hc.1.2),
      if_neg (by simpa using hc.2), if_neg (by simp [hc.1.1]),
      ih fun d hd => hcs d (List.mem_cons_of_mem _ hd), List.reverse_cons,
      List.append_assoc, List.singleton_append]

/-- The word read so far ends where no further character of it stands. -/
theorem tokenizeFrom_apart (h : Apart rest) :
    tokenizeFrom word rest = wordToken word ++ tokenizeFrom [] rest := by
  cases rest with
  | nil => simp [tokenizeFrom, wordToken]
  | cons c cs =>
    have hc : isWordChar c = false := h c rfl
    by_cases ho : (c == '(') = true
    · simp [tokenizeFrom, ho, wordToken]
    · by_cases hcl : (c == ')') = true
      · simp [tokenizeFrom, ho, hcl, wordToken]
      · have hb : Text.isBlank c = true := by
          rw [isWordChar, bne, bne] at hc
          simpa [ho, hcl] using hc
        simp [tokenizeFrom, ho, hcl, hb, wordToken]

theorem tokenizeFrom_atom (hw : IsWord w.toList) (h : Apart rest) :
    tokenizeFrom [] (w.toList ++ rest) = .word w :: tokenizeFrom [] rest := by
  have hne : w.toList.reverse ≠ [] := fun he => hw.1 (List.reverse_eq_nil_iff.1 he)
  rw [tokenizeFrom_word hw.2, List.append_nil, tokenizeFrom_apart h]
  cases hr : w.toList.reverse with
  | nil => exact absurd hr hne
  | cons c cs =>
    rw [wordToken, ← hr, List.reverse_reverse, String.ofList_toList, List.singleton_append]
    exact List.cons_ne_nil c cs

mutual

/-- The printed text falls into the tokens that were printed. -/
theorem tokenizeFrom_textOnto (s : Sexpr) (hs : s.Wordy) {rest : List Char} (h : Apart rest) :
    tokenizeFrom [] (s.textOnto rest) = s.tokensOnto (tokenizeFrom [] rest) := by
  match s with
  | atom w => exact tokenizeFrom_atom (wordy_atom.1 hs) h
  | list [] => simp [textOnto, tokenizeFrom, tokensOnto, itemTokensOnto, wordToken]
  | list (x :: xs) =>
    have hx := wordy_list.1 hs
    rw [textOnto, tokenizeFrom, if_pos (beq_self_eq_true '('),
      tokenizeFrom_textOnto x (hx x List.mem_cons_self) apart_itemTextOnto,
      tokenizeFrom_itemTextOnto xs fun y hy => hx y (List.mem_cons_of_mem _ hy)]
    rfl

theorem tokenizeFrom_itemTextOnto (xs : List Sexpr) (hs : ∀ x ∈ xs, x.Wordy) {rest : List Char} :
    tokenizeFrom [] (itemTextOnto xs (')' :: rest)) =
      itemTokensOnto xs (.closing :: tokenizeFrom [] rest) := by
  match xs with
  | [] => simp [itemTextOnto, tokenizeFrom, itemTokensOnto, wordToken]
  | x :: xs =>
    have hblank : Text.isBlank ' ' = true := by decide
    rw [itemTextOnto, tokenizeFrom, if_neg (by decide), if_neg (by decide), if_pos hblank,
      tokenizeFrom_textOnto x (hs x List.mem_cons_self) apart_itemTextOnto,
      tokenizeFrom_itemTextOnto xs fun y hy => hs y (List.mem_cons_of_mem _ hy)]
    rfl

end

/-- What was printed reads as what it was printed from. -/
theorem read_text (hs : s.Wordy) : read s.text = .ok s := by
  rw [read, tokenize, text, String.toList_ofList, tokenizeFrom_textOnto s hs apart_nil]
  exact ofTokens_tokens s

mutual

/-- An s-expression of words prints in one line. -/
theorem break_mem_of_textOnto (s : Sexpr) (hs : s.Wordy) {rest : List Char}
    (h : '\n' ∈ s.textOnto rest) : '\n' ∈ rest := by
  match s with
  | atom w =>
    have hw := wordy_atom.1 hs
    refine (List.mem_append.1 h).resolve_left fun hmem => ?_
    exact absurd (hw.2 _ hmem) (by decide)
  | list [] => simpa [textOnto] using h
  | list (x :: xs) =>
    have hx := wordy_list.1 hs
    have h := break_mem_of_textOnto x (hx x List.mem_cons_self) (by simpa [textOnto] using h)
    simpa using break_mem_of_itemTextOnto xs (fun y hy => hx y (List.mem_cons_of_mem _ hy)) h

theorem break_mem_of_itemTextOnto (xs : List Sexpr) (hs : ∀ x ∈ xs, x.Wordy) {rest : List Char}
    (h : '\n' ∈ itemTextOnto xs rest) : '\n' ∈ rest := by
  match xs with
  | [] => exact h
  | x :: xs =>
    have h := break_mem_of_textOnto x (hs x List.mem_cons_self) (by simpa [itemTextOnto] using h)
    exact break_mem_of_itemTextOnto xs (fun y hy => hs y (List.mem_cons_of_mem _ hy)) h

end

/-! ## Reading -/

/-- A token is a part of the text, unless it began with the word read so far. -/
theorem isWord_of_mem_tokenizeFrom (hword : ∀ c ∈ word, isWordChar c = true)
    (h : .word w ∈ tokenizeFrom word cs) : IsWord w.toList ∧ w.toList <:+: word.reverse ++ cs := by
  -- a token that ends the word, and one of what follows
  have here : ∀ {word rest : List Char}, (∀ c ∈ word, isWordChar c = true) →
      .word w ∈ wordToken word → IsWord w.toList ∧ w.toList <:+: word.reverse ++ rest := by
    intro word rest hword h
    cases word with
    | nil => cases h
    | cons c cs =>
      obtain rfl : w = String.ofList (c :: cs).reverse := by simpa [wordToken] using h
      rw [String.toList_ofList]
      exact ⟨⟨by simp, fun d hd => hword d (List.mem_reverse.1 hd)⟩,
        (List.prefix_append _ _).isInfix⟩
  have later : ∀ {word : List Char} {c : Char} {cs : List Char},
      IsWord w.toList ∧ w.toList <:+: [].reverse ++ cs →
      IsWord w.toList ∧ w.toList <:+: word.reverse ++ c :: cs := fun h =>
    ⟨h.1, h.2.trans ((List.suffix_cons _ _).trans (List.suffix_append _ _)).isInfix⟩
  fun_induction tokenizeFrom word cs with
  | case1 word => exact here hword h
  | case2 word c cs _ ih =>
    rcases List.mem_append.1 h with h | h
    · exact here hword h
    · exact later (ih (by simp) (by simpa using h))
  | case3 word c cs _ _ ih =>
    rcases List.mem_append.1 h with h | h
    · exact here hword h
    · exact later (ih (by simp) (by simpa using h))
  | case4 word c cs _ _ _ ih =>
    rcases List.mem_append.1 h with h | h
    · exact here hword h
    · exact later (ih (by simp) h)
  | case5 word c cs ho hcl hb ih =>
    have hc : isWordChar c = true := by
      rw [isWordChar, bne, bne]
      simpa [ho, hcl] using hb
    simpa using ih (by simpa [hc] using hword) h

/-- An atom of what was read is a token, or it was read before. -/
theorem mem_atoms_of_readFrom {lists : List (List Sexpr)} (h : readFrom lists ts = .ok s)
    (hw : w ∈ s.atoms) : .word w ∈ ts ∨ ∃ items ∈ lists, w ∈ itemAtoms items := by
  have hrev : ∀ items : List Sexpr, w ∈ (list items.reverse).atoms ↔ w ∈ itemAtoms items := by
    simp [atoms, mem_itemAtoms]
  fun_induction readFrom lists ts with
  | case1 => cases h
  | case2 lists ts ih => simpa [itemAtoms] using ih h
  | case3 => cases h
  | case4 v ts _ =>
    cases h
    obtain rfl : w = v := by simpa [atoms] using hw
    exact .inl List.mem_cons_self
  | case5 => cases h
  | case6 items lists v ts ih =>
    have := ih h
    simp only [itemAtoms, atoms, List.mem_cons, List.mem_append, exists_eq_or_imp,
      Token.word.injEq] at this ⊢
    grind
  | case7 items ts _ =>
    cases h
    exact .inr ⟨items, List.mem_cons_self, (hrev items).1 hw⟩
  | case8 => cases h
  | case9 items outer lists ts ih =>
    have := ih h
    simp only [itemAtoms, List.mem_append, List.mem_cons, exists_eq_or_imp, hrev] at this ⊢
    grind

/-- The atoms of what was read are words, and parts of its text. -/
theorem wordy_of_read (h : read source = .ok s) :
    s.Wordy ∧ ∀ w ∈ s.atoms, w.toList <:+: source.toList := by
  rw [read, ofTokens] at h
  split at h
  · cases h
  · have hmem : ∀ w ∈ s.atoms, IsWord w.toList ∧ w.toList <:+: source.toList := by
      intro w hw
      rcases mem_atoms_of_readFrom h hw with ht | ⟨_, hi, _⟩
      · simpa using isWord_of_mem_tokenizeFrom (by simp) ht
      · cases hi
    exact ⟨fun w hw => (hmem w hw).1, fun w hw => (hmem w hw).2⟩

/-! ## Single words -/

theorem isBlank_of_tokenizeFrom (h : tokenizeFrom word cs = []) :
    word = [] ∧ ∀ c ∈ cs, Text.isBlank c = true := by
  fun_induction tokenizeFrom word cs with
  | case1 word =>
    cases word with
    | nil => simp
    | cons c cs => simp [wordToken] at h
  | case2 => simp at h
  | case3 => simp at h
  | case4 word c cs _ _ hb ih =>
    obtain ⟨hw, ht⟩ := List.append_eq_nil_iff.1 h
    cases word with
    | nil => exact ⟨rfl, List.forall_mem_cons.2 ⟨hb, (ih ht).2⟩⟩
    | cons d ds => simp [wordToken] at hw
  | case5 word c cs _ _ _ ih => exact absurd (ih h).1 (List.cons_ne_nil c word)

/-- A text with one token is a word between blanks. -/
theorem eq_of_tokenizeFrom (h : tokenizeFrom word cs = [.word w]) :
    ∃ front back, (∀ c ∈ front, Text.isBlank c = true) ∧ (∀ c ∈ back, Text.isBlank c = true) ∧
      word.reverse ++ cs = front ++ w.toList ++ back := by
  fun_induction tokenizeFrom word cs with
  | case1 word =>
    cases word with
    | nil => simp [wordToken] at h
    | cons c cs =>
      obtain rfl : String.ofList (c :: cs).reverse = w := by simpa [wordToken] using h
      exact ⟨[], [], by simp, by simp, by simp⟩
  | case2 word c cs _ ih =>
    have : Token.opening ∈ [Token.word w] := h ▸ by simp
    simp at this
  | case3 word c cs _ _ ih =>
    have : Token.closing ∈ [Token.word w] := h ▸ by simp
    simp at this
  | case4 word c cs _ _ hb ih =>
    cases word with
    | nil =>
      obtain ⟨front, back, hf, hbk, he⟩ := ih h
      exact ⟨c :: front, back, List.forall_mem_cons.2 ⟨hb, hf⟩, hbk, by simpa using he⟩
    | cons d ds =>
      obtain ⟨rfl, ht⟩ : String.ofList (d :: ds).reverse = w ∧ tokenizeFrom [] cs = [] := by
        simpa [wordToken] using h
      exact ⟨[], c :: cs, by simp, List.forall_mem_cons.2 ⟨hb, (isBlank_of_tokenizeFrom ht).2⟩,
        by simp⟩
  | case5 word c cs _ _ _ ih => simpa using ih h

/-- Once a list is open, a list is read. -/
theorem ne_atom_of_readFrom {items : List Sexpr} {lists : List (List Sexpr)} :
    readFrom (items :: lists) ts ≠ .ok (.atom w) := by
  intro h
  generalize ho : items :: lists = opened at h
  fun_induction readFrom opened ts generalizing items lists with
  | case2 lists' ts ih => exact ih rfl h
  | case6 items' lists' v ts ih => exact ih rfl h
  | case9 items' outer lists' ts ih => exact ih rfl h
  | _ => simp_all

/-- A text that reads as an atom is the atom between blanks. -/
theorem eq_of_read_atom (h : read source = .ok (.atom w)) :
    ∃ front back, (∀ c ∈ front, Text.isBlank c = true) ∧ (∀ c ∈ back, Text.isBlank c = true) ∧
      source.toList = front ++ w.toList ++ back := by
  have one : ∀ {ts : List Token}, readFrom [] ts = .ok (.atom w) → ts = [.word w] := by
    intro ts h
    match ts with
    | [] => cases h
    | .opening :: ts => exact absurd h ne_atom_of_readFrom
    | .closing :: ts => cases h
    | [.word v] => cases h; rfl
    | .word v :: t :: ts => cases h
  rw [read, ofTokens] at h
  split at h
  · cases h
  · exact eq_of_tokenizeFrom (one h)

end EqSat.Sexpr
