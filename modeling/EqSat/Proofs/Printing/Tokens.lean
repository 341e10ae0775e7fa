import EqSat.Proofs.Printing.Sexpr

/-!
# The tokens of a text

A text is made of a sequence of tokens if it holds them in order, with any blanks between them, and
if every word ends where no further character of a word stands.  Every text is made of one sequence
of tokens.  Reading gives an s-expression exactly where the tokens are those of the s-expression
written out, and an error on all other texts; the error says where the tokens go wrong.

    tokenize_eq_iff      the tokens of a text are those that it is made of
    reading_iff          what reading makes of tokens
    reads_tokenized      what reading makes of a text
-/

namespace EqSat.Sexpr

/-- The text is made of the tokens. -/
inductive Tokenized : List Char → List Token → Prop
  | nil : Tokenized [] []
  | blank {c : Char} {cs : List Char} {ts : List Token} : Text.isBlank c = true →
      Tokenized cs ts → Tokenized (c :: cs) ts
  | opening {cs : List Char} {ts : List Token} : Tokenized cs ts →
      Tokenized ('(' :: cs) (.opening :: ts)
  | closing {cs : List Char} {ts : List Token} : Tokenized cs ts →
      Tokenized (')' :: cs) (.closing :: ts)
  | word {w : String} {cs : List Char} {ts : List Token} : IsWord w.toList → Apart cs →
      Tokenized cs ts → Tokenized (w.toList ++ cs) (.word w :: ts)

/-- What tokens read as. -/
inductive Reading : List Token → Except Error Sexpr → Prop
  | whole (s : Sexpr) : Reading s.tokens (.ok s)
  | empty : Reading [] (.error .empty)
  | closing (ts : List Token) : Reading (.closing :: ts) (.error .unexpectedClosing)
  /-- Something stands behind a whole s-expression. -/
  | trailing (s : Sexpr) (t : Token) (ts : List Token) :
      Reading (s.tokens ++ t :: ts) (.error .trailingText)
  /-- Something is missing at the end of an s-expression. -/
  | unfinished {s : Sexpr} {t : Token} {ts us : List Token} : ts ≠ [] →
      ts ++ t :: us = s.tokens → Reading ts (.error .unbalanced)

variable {s : Sexpr} {xs ys : List Sexpr} {cs rest word : List Char} {c : Char}
  {w source : String} {ts us : List Token} {t : Token} {res : Except Error Sexpr}

/-! ## Tokens of a text -/

/-- A text that starts behind a word is made of the word's token and its own. -/
theorem Tokenized.behind (hword : ∀ c ∈ word, isWordChar c = true) (ha : Apart rest)
    (h : Tokenized rest ts) : Tokenized (word.reverse ++ rest) (wordToken word ++ ts) := by
  cases word with
  | nil => exact h
  | cons c cs =>
    have hw : IsWord (String.ofList (c :: cs).reverse).toList := by
      rw [String.toList_ofList]
      exact ⟨by simp, fun d hd => hword d (List.mem_reverse.1 hd)⟩
    have hmade := Tokenized.word hw ha h
    rwa [String.toList_ofList] at hmade

/-- A text is made of its tokens, also behind the beginning of a word. -/
theorem tokenized_tokenizeFrom (hword : ∀ c ∈ word, isWordChar c = true) :
    Tokenized (word.reverse ++ cs) (tokenizeFrom word cs) := by
  fun_induction tokenizeFrom word cs with
  | case1 word =>
    have h := Tokenized.nil.behind hword apart_nil
    rwa [List.append_nil (wordToken word)] at h
  | case2 word c cs ho ih =>
    obtain rfl := eq_of_beq ho
    exact (Tokenized.opening (ih (List.forall_mem_nil _))).behind hword (apart_cons (by decide))
  | case3 word c cs _ hc ih =>
    obtain rfl := eq_of_beq hc
    exact (Tokenized.closing (ih (List.forall_mem_nil _))).behind hword (apart_cons (by decide))
  | case4 word c cs _ _ hb ih =>
    have ha : Apart (c :: cs) := apart_cons (by simp [isWordChar, hb])
    exact (Tokenized.blank hb (ih (List.forall_mem_nil _))).behind hword ha
  | case5 word c cs ho hc hb ih =>
    have hchar : isWordChar c = true := by
      rw [isWordChar, bne, bne]
      simpa [ho, hc] using hb
    have h := ih (List.forall_mem_cons.2 ⟨hchar, hword⟩)
    rwa [List.reverse_cons, List.append_assoc, List.singleton_append] at h

theorem Tokenized.tokenizeFrom_eq (h : Tokenized cs ts) : tokenizeFrom [] cs = ts := by
  induction h with
  | nil => rfl
  | @blank c cs ts hb _ ih =>
    have ho : c ≠ '(' := by rintro rfl; exact absurd hb (by decide)
    have hc : c ≠ ')' := by rintro rfl; exact absurd hb (by decide)
    rw [tokenizeFrom, if_neg (by simpa using ho), if_neg (by simpa using hc), if_pos hb, ih]
    rfl
  | opening _ ih => simp [tokenizeFrom, wordToken, ih]
  | closing _ ih => simp [tokenizeFrom, wordToken, ih]
  | word hw ha _ ih => rw [tokenizeFrom_atom hw ha, ih]

/-- **The tokens of a text** are those that it is made of. -/
theorem tokenize_eq_iff : tokenize source = ts ↔ Tokenized source.toList ts := by
  refine ⟨?_, Tokenized.tokenizeFrom_eq⟩
  rintro rfl
  have hword : ∀ c ∈ ([] : List Char), isWordChar c = true := List.forall_mem_nil _
  exact tokenized_tokenizeFrom hword

theorem Tokenized.isWord (h : Tokenized cs ts) (hw : .word w ∈ ts) : IsWord w.toList := by
  rw [← h.tokenizeFrom_eq] at hw
  exact (isWord_of_mem_tokenizeFrom (List.forall_mem_nil _) hw).1

/-! ## Tokens of an s-expression -/

mutual

theorem tokensOnto_append (s : Sexpr) (ts rest : List Token) :
    s.tokensOnto (ts ++ rest) = s.tokensOnto ts ++ rest := by
  match s with
  | atom w => rfl
  | list xs =>
    rw [tokensOnto, ← List.cons_append, itemTokensOnto_append xs]
    rfl

theorem itemTokensOnto_append (xs : List Sexpr) (ts rest : List Token) :
    itemTokensOnto xs (ts ++ rest) = itemTokensOnto xs ts ++ rest := by
  match xs with
  | [] => rfl
  | x :: xs => rw [itemTokensOnto, itemTokensOnto, itemTokensOnto_append xs, tokensOnto_append x]

end

theorem tokensOnto_eq (s : Sexpr) (rest : List Token) : s.tokensOnto rest = s.tokens ++ rest :=
  tokensOnto_append s [] rest

theorem itemTokensOnto_snoc (xs : List Sexpr) (x : Sexpr) (rest : List Token) :
    itemTokensOnto (xs ++ [x]) rest = itemTokensOnto xs (x.tokensOnto rest) := by
  induction xs with
  | nil => rfl
  | cons y xs ih => rw [List.cons_append, itemTokensOnto, itemTokensOnto, ih]

mutual

/-- The words of an s-expression are its atoms. -/
theorem mem_tokensOnto (s : Sexpr) (h : w ∈ s.atoms) (rest : List Token) :
    .word w ∈ s.tokensOnto rest := by
  match s with
  | atom v =>
    obtain rfl : w = v := by simpa [atoms] using h
    exact List.mem_cons_self
  | list xs => exact List.mem_cons_of_mem _ (mem_itemTokensOnto xs h _)

theorem mem_itemTokensOnto (xs : List Sexpr) (h : w ∈ itemAtoms xs) (rest : List Token) :
    .word w ∈ itemTokensOnto xs rest := by
  match xs with
  | [] => cases h
  | x :: xs =>
    rw [itemTokensOnto]
    rcases List.mem_append.1 h with h | h
    · exact mem_tokensOnto x h _
    · rw [tokensOnto_eq]
      exact List.mem_append_right _ (mem_itemTokensOnto xs h rest)

end

/-- The tokens of a text are words, so it spells s-expressions of words only. -/
theorem Tokenized.wordy (h : Tokenized cs s.tokens) : s.Wordy :=
  fun _ hw => h.isWord (mem_tokensOnto s hw [])

/-! ## Reading tokens -/

/-- The tokens read so far: those of the lists still open, the innermost last. -/
def openTokens : List (List Sexpr) → List Token
  | [] => []
  | items :: lists => openTokens lists ++ .opening :: itemTokensOnto items.reverse []

theorem openTokens_open (lists : List (List Sexpr)) (ts : List Token) :
    openTokens ([] :: lists) ++ ts = openTokens lists ++ .opening :: ts := by
  simp [openTokens, itemTokensOnto]

/-- An item that has been read goes to the innermost list. -/
theorem openTokens_item (x : Sexpr) (items : List Sexpr) (lists : List (List Sexpr))
    (ts : List Token) :
    openTokens ((x :: items) :: lists) ++ ts = openTokens (items :: lists) ++ (x.tokens ++ ts) := by
  have hitem : itemTokensOnto (items.reverse ++ [x]) [] =
      itemTokensOnto items.reverse [] ++ x.tokens := by
    rw [itemTokensOnto_snoc, ← itemTokensOnto_append]
    rfl
  rw [openTokens, openTokens, List.reverse_cons, hitem]
  simp

theorem tokens_list (xs : List Sexpr) :
    (list xs).tokens = .opening :: (itemTokensOnto xs [] ++ [.closing]) := by
  rw [← itemTokensOnto_append]
  rfl

theorem openTokens_close (items : List Sexpr) (lists : List (List Sexpr)) (ts : List Token) :
    openTokens (items :: lists) ++ .closing :: ts =
      openTokens lists ++ ((list items.reverse).tokens ++ ts) := by
  simp [openTokens, tokens_list]

/-- Lists that are open can be closed. -/
theorem exists_closed (items : List Sexpr) (lists : List (List Sexpr)) :
    ∃ us s, openTokens (items :: lists) ++ .closing :: us = tokens s := by
  induction lists generalizing items with
  | nil => exact ⟨[], list items.reverse, by rw [openTokens_close, openTokens]; simp⟩
  | cons outer lists ih =>
    obtain ⟨us, s, h⟩ := ih (list items.reverse :: outer)
    refine ⟨.closing :: us, s, ?_⟩
    rw [openTokens_close, ← openTokens_item, h]

/-- What is left to read, behind the tokens of the lists still open. -/
theorem reading_readFrom {lists : List (List Sexpr)} (h : lists = [] → ts ≠ []) :
    Reading (openTokens lists ++ ts) (readFrom lists ts) := by
  fun_induction readFrom lists ts with
  | case1 lists =>
    cases lists with
    | nil => exact absurd rfl (h rfl)
    | cons items lists =>
      obtain ⟨us, s, hs⟩ := exists_closed items lists
      rw [List.append_nil]
      exact .unfinished (by simp [openTokens]) hs
  | case2 lists ts ih =>
    rw [← openTokens_open]
    exact ih (fun he => absurd he (List.cons_ne_nil _ _))
  | case3 ts => exact .closing ts
  | case4 w ts hts =>
    rw [List.isEmpty_iff.1 hts]
    exact .whole (atom w)
  | case5 w ts hts =>
    obtain ⟨t, us, rfl⟩ := List.exists_cons_of_ne_nil fun he => hts (List.isEmpty_iff.2 he)
    exact .trailing (atom w) t us
  | case6 items lists w ts ih =>
    have ih := ih (fun he => absurd he (List.cons_ne_nil _ _))
    rwa [openTokens_item] at ih
  | case7 items ts hts =>
    rw [openTokens_close, List.isEmpty_iff.1 hts, List.append_nil]
    exact .whole _
  | case8 items ts hts =>
    obtain ⟨t, us, rfl⟩ := List.exists_cons_of_ne_nil fun he => hts (List.isEmpty_iff.2 he)
    rw [openTokens_close]
    exact .trailing _ t us
  | case9 items outer lists ts ih =>
    have ih := ih (fun he => absurd he (List.cons_ne_nil _ _))
    rwa [openTokens_item, ← openTokens_close] at ih

theorem reading_ofTokens (ts : List Token) : Reading ts (ofTokens ts) := by
  rw [ofTokens]
  split
  · next h =>
    rw [List.isEmpty_iff.1 h]
    exact .empty
  · next h =>
    have hne : ([] : List (List Sexpr)) = [] → ts ≠ [] := fun _ he => h (List.isEmpty_iff.2 he)
    exact reading_readFrom hne

/-- Nothing may stand behind an s-expression. -/
theorem ofTokens_trailing (s : Sexpr) (t : Token) (ts : List Token) :
    ofTokens (s.tokens ++ t :: ts) = .error .trailingText := by
  rw [← tokensOnto_eq]
  cases s with
  | atom w => rfl
  | list xs =>
    rw [tokensOnto, ofTokens, List.isEmpty_cons, if_neg Bool.false_ne_true, readFrom,
      readFrom_itemTokensOnto xs [] [], readFrom, List.isEmpty_cons, if_neg Bool.false_ne_true]

/-- **What reading makes of tokens.** -/
theorem reading_iff : Reading ts res ↔ ofTokens ts = res := by
  refine ⟨fun h => ?_, fun h => h ▸ reading_ofTokens ts⟩
  cases h with
  | whole s => exact ofTokens_tokens s
  | empty => rfl
  | closing ts => rfl
  | trailing s t ts => exact ofTokens_trailing s t ts
  | @unfinished s t _ us hne hs =>
    -- no other error or result goes with the beginning of an s-expression
    have hok := ofTokens_tokens s
    have hreading := reading_ofTokens ts
    generalize ofTokens ts = res at hreading ⊢
    cases hreading with
    | whole s' =>
      rw [← hs, ofTokens_trailing] at hok
      cases hok
    | empty => exact absurd rfl hne
    | closing ts =>
      rw [← hs] at hok
      cases hok
    | trailing s' t' ts' =>
      rw [← hs, List.append_assoc, List.cons_append, ofTokens_trailing] at hok
      cases hok
    | unfinished _ _ => rfl

/-- The tokens of a text tell the s-expression. -/
theorem read_eq_ok_iff : read source = .ok s ↔ Tokenized source.toList s.tokens := by
  rw [← tokenize_eq_iff, read, ← reading_iff]
  constructor
  · intro h
    generalize tokenize source = ts at h ⊢
    cases h with
    | whole s => rfl
  · intro h
    rw [h]
    exact .whole s

/-- **Reading texts.**  A text reads as an s-expression of words exactly if it is made of the tokens
of the s-expression written out; if it is not so for exactly one of them, there is an error, and the
tokens tell which.  An s-expression prints as a text that reads as it exactly if its atoms are
words. -/
theorem reads_tokenized (source : String) :
    (∀ s, read source = .ok s ↔ s.Wordy ∧ Tokenized source.toList s.tokens) ∧
    ((∃ e, read source = .error e) ↔ ¬ ∃! s : Sexpr, s.Wordy ∧ Tokenized source.toList s.tokens) ∧
    (∀ e, read source = .error e ↔ ∃ ts, Tokenized source.toList ts ∧ Reading ts (.error e)) ∧
    ∀ s : Sexpr, read s.text = .ok s ↔ s.Wordy := by
  have hok : ∀ s, read source = .ok s ↔ s.Wordy ∧ Tokenized source.toList s.tokens := fun s =>
    read_eq_ok_iff.trans ⟨fun h => ⟨h.wordy, h⟩, And.right⟩
  refine ⟨hok, ?_, fun e => ?_, fun s => ⟨fun h => (wordy_of_read h).1, read_text⟩⟩
  · simp only [← hok]
    cases hread : read source with
    | ok s => simp
    | error e => simp
  · simp only [← tokenize_eq_iff, exists_eq_left', reading_iff]
    rfl

end EqSat.Sexpr
