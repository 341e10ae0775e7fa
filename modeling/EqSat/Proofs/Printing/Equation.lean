import EqSat.Rule.Line
import EqSat.Proofs.Printing.Pattern

/-!
# Printed equations

The arrow of an equation is the first one of its text, so a left side that is to be read again holds
none; and its guard stands behind the first word `when` outside of parentheses, so the right side is
not that word.  Both are true of every equation that was read, and the text of an equation of which
they are true reads as the equation.

    splitArrow?_textOnto         the search for the arrow passes over an s-expression
    splitWhen?_textOnto          and so does the search for the guard
    Rule.ofHeader_text           the text of an equation reads as the equation
    Rule.legible_of_ofHeader     what is read is legible
-/

namespace EqSat

/-! ## Text between blanks -/

namespace Text

/-- Neither the first nor the last character is blank. -/
def Trimmed (cs : List Char) : Prop :=
  (∀ c ∈ cs.head?, isBlank c = false) ∧ ∀ c ∈ cs.getLast?, isBlank c = false

instance (cs : List Char) : Decidable (Trimmed cs) :=
  decidable_of_iff (cs.head?.all (!isBlank ·) = true ∧ cs.getLast?.all (!isBlank ·) = true) (by
    simp [Trimmed, Option.all_eq_true])

variable {cs front back : List Char}

theorem isBlank_space : ∀ c ∈ [' '], isBlank c = true :=
  List.forall_mem_singleton.2 (by decide)

theorem trimmed_strip (cs : List Char) : Trimmed (strip cs) :=
  ⟨fun _ hc => head_strip hc, fun _ hc => getLast_strip hc⟩

theorem dropWhile_front (hf : ∀ c ∈ front, isBlank c = true)
    (h : ∀ c ∈ cs.head?, isBlank c = false) : (front ++ cs).dropWhile isBlank = cs := by
  rw [List.dropWhile_append_of_pos hf]
  cases cs with
  | nil => rfl
  | cons c cs => exact List.dropWhile_cons_of_neg (by simp [h c rfl])

theorem strip_of_isBlank (h : ∀ c ∈ cs, isBlank c = true) : strip cs = [] := by
  have hd : (cs ++ []).dropWhile isBlank = [] := dropWhile_front h (by simp)
  rw [List.append_nil] at hd
  rw [strip, hd]
  rfl

theorem strip_between (hf : ∀ c ∈ front, isBlank c = true) (hb : ∀ c ∈ back, isBlank c = true)
    (h : Trimmed cs) : strip (front ++ cs ++ back) = cs := by
  have hrev : ∀ c ∈ back.reverse, isBlank c = true := fun c hc => hb c (List.mem_reverse.1 hc)
  cases cs with
  | nil => exact strip_of_isBlank (by simpa [or_imp, forall_and] using ⟨hf, hb⟩)
  | cons c cs =>
    rw [strip, List.append_assoc, dropWhile_front hf (by simpa using h.1), stripRight,
      List.reverse_append, dropWhile_front hrev (by rw [List.head?_reverse]; exact h.2),
      List.reverse_reverse]

theorem strip_of_trimmed (h : Trimmed cs) : strip cs = cs := by
  simpa using strip_between (List.forall_mem_nil _) (List.forall_mem_nil _) h

theorem Trimmed.append {a b : List Char} (ha : Trimmed a) (hb : Trimmed b) (hane : a ≠ [])
    (hbne : b ≠ []) (m : List Char) : Trimmed (a ++ (m ++ b)) := by
  obtain ⟨c, cs, rfl⟩ := List.exists_cons_of_ne_nil hane
  refine ⟨by simpa using ha.1, ?_⟩
  rw [← List.append_assoc, List.getLast?_append_of_ne_nil _ hbne]
  exact hb.2

/-- The blank in front of a text is cut off. -/
theorem strip_cons (h : Trimmed cs) : strip (' ' :: cs) = cs := by
  simpa using strip_between isBlank_space (List.forall_mem_nil _) h

/-- Only blanks are cut off. -/
theorem exists_between_blanks (cs : List Char) : ∃ front back, (∀ c ∈ front, isBlank c = true) ∧
    (∀ c ∈ back, isBlank c = true) ∧ cs = front ++ strip cs ++ back := by
  have htake : ∀ cs : List Char, ∀ c ∈ cs.takeWhile isBlank, isBlank c = true := fun cs =>
    List.all_eq_true.1 List.all_takeWhile
  refine ⟨cs.takeWhile isBlank, ((cs.dropWhile isBlank).reverse.takeWhile isBlank).reverse,
    htake cs, fun c hc => htake _ c (List.mem_reverse.1 hc), ?_⟩
  rw [strip, stripRight, List.append_assoc, ← List.reverse_append, List.takeWhile_append_dropWhile,
    List.reverse_reverse, List.takeWhile_append_dropWhile]

theorem strip_isInfix (cs : List Char) : strip cs <:+: cs := by
  have hright := stripRight_prefix (cs.dropWhile isBlank)
  exact hright.isInfix.trans (List.dropWhile_suffix isBlank).isInfix

end Text

namespace Sexpr

variable {s : Sexpr}

/-- The text of an s-expression starts and ends with an atom or a parenthesis. -/
theorem trimmed_text (hs : s.Wordy) : Text.Trimmed s.text.toList := by
  have hword : ∀ c : Char, isWordChar c = true → Text.isBlank c = false :=
    fun _ => isBlank_of_isWordChar
  have hclose : Text.isBlank ')' = false := by decide
  have hopen : Text.isBlank '(' = false := by decide
  rw [text, String.toList_ofList]
  cases s with
  | atom w =>
    have hw := (wordy_atom.1 hs).2
    rw [textOnto, List.append_nil]
    exact ⟨fun c hc => hword c (hw c (List.mem_of_mem_head? hc)),
      fun c hc => hword c (hw c (List.mem_of_mem_getLast? hc))⟩
  | list items =>
    cases items with
    | nil => exact ⟨by simp [textOnto, hopen], by simp [textOnto, hclose]⟩
    | cons x xs =>
      refine ⟨by simp [textOnto, hopen], ?_⟩
      have hend := itemTextOnto_append xs [] [')']
      rw [List.nil_append] at hend
      rw [textOnto, hend, textOnto_append, ← List.cons_append, List.getLast?_concat]
      simp [hclose]

theorem text_ne_nil (hs : s.Wordy) : s.text.toList ≠ [] := by
  rw [text, String.toList_ofList]
  cases s with
  | atom w => simpa [textOnto] using (wordy_atom.1 hs).1
  | list items => cases items <;> simp [textOnto]

theorem strip_textOnto (hs : s.Wordy) : String.ofList (Text.strip (s.textOnto [' '])) = s.text := by
  have hstrip := Text.strip_between (List.forall_mem_nil _) Text.isBlank_space (trimmed_text hs)
  rw [textOnto_eq, ← List.nil_append s.text.toList, hstrip, String.ofList_toList]

end Sexpr

namespace Rule

open Sexpr (Apart IsWord Wordy isWordChar)

variable {cs l r rest w : List Char} {c : Char} {apart : Bool} {depth : Int}

/-! ## The arrow -/

def arrow : List Char := ['=', '>']

theorem splitArrow?_cons (h : ¬ arrow <+: c :: cs) :
    splitArrow? (c :: cs) = (splitArrow? cs).map fun (l, r) => (c :: l, r) := by
  rw [splitArrow?]
  rintro cs' rfl rfl
  exact h (List.prefix_append arrow cs')

theorem splitArrow?_cons_of_ne (h : c ≠ '=') :
    splitArrow? (c :: cs) = (splitArrow? cs).map fun (l, r) => (c :: l, r) :=
  splitArrow?_cons fun hp => h (List.cons_prefix_cons.1 hp).1.symm

/-- No arrow stands in front of the first one. -/
theorem not_arrow_infix_of_splitArrow? (h : splitArrow? cs = some (l, r)) : ¬ arrow <:+: l := by
  fun_induction splitArrow? cs generalizing l with
  | case1 cs =>
    cases h
    simp [arrow]
  | case2 c cs hne ih =>
    obtain ⟨⟨l', r'⟩, h', he⟩ := Option.map_eq_some_iff.1 h
    cases he
    rw [List.infix_cons_iff]
    rintro (hp | hin)
    · have hcs := eq_of_splitArrow? h'
      obtain ⟨t, ht⟩ := hp
      cases ht
      exact hne (t ++ '=' :: '>' :: r) rfl (by rw [hcs]; rfl)
    · exact ih h' hin
  | case3 => cases h

/-- The search passes over a text without an arrow, if what follows does not complete one. -/
theorem splitArrow?_append (hcs : ¬ arrow <:+: cs) (h : Apart rest) :
    splitArrow? (cs ++ rest) = (splitArrow? rest).map fun (l, r) => (cs ++ l, r) := by
  induction cs with
  | nil => simp
  | cons c cs ih =>
    have hno : ¬ arrow <+: c :: (cs ++ rest) := by
      rintro ⟨t, ht⟩
      cases cs with
      | nil =>
        cases rest with
        | nil => simp [arrow] at ht
        | cons d rest =>
          have hd : isWordChar d = false := h d rfl
          simp only [arrow, List.cons_append, List.nil_append, List.cons.injEq] at ht
          rw [← ht.2.1] at hd
          exact absurd hd (by decide)
      | cons d cs =>
        refine hcs (List.IsPrefix.isInfix ⟨cs, ?_⟩)
        simp only [arrow, List.cons_append, List.nil_append, List.cons.injEq] at ht ⊢
        exact ⟨ht.1, ht.2.1, trivial⟩
    rw [List.cons_append, splitArrow?_cons hno,
      ih fun hin => hcs (hin.trans (List.suffix_cons c cs).isInfix), Option.map_map]
    rfl

mutual

/-- The search for the arrow passes over a printed s-expression. -/
theorem splitArrow?_textOnto (s : Sexpr) (hs : ∀ w ∈ s.atoms, ¬ arrow <:+: w.toList)
    {rest : List Char} (h : Apart rest) :
    splitArrow? (s.textOnto rest) = (splitArrow? rest).map fun (l, r) => (s.textOnto l, r) := by
  match s with
  | .atom w => exact splitArrow?_append (hs w (by simp [Sexpr.atoms])) h
  | .list [] =>
    rw [Sexpr.textOnto, splitArrow?_cons_of_ne (by decide), splitArrow?_cons_of_ne (by decide),
      Option.map_map]
    rfl
  | .list (x :: xs) =>
    have hx : ∀ w ∈ x.atoms, ¬ arrow <:+: w.toList := fun w hw =>
      hs w (List.mem_append_left _ hw)
    rw [Sexpr.textOnto, splitArrow?_cons_of_ne (by decide),
      splitArrow?_textOnto x hx Sexpr.apart_itemTextOnto,
      splitArrow?_itemTextOnto xs fun w hw => hs w (List.mem_append_right _ hw),
      Option.map_map, Option.map_map]
    rfl

theorem splitArrow?_itemTextOnto (xs : List Sexpr)
    (hs : ∀ w ∈ Sexpr.itemAtoms xs, ¬ arrow <:+: w.toList) {rest : List Char} :
    splitArrow? (Sexpr.itemTextOnto xs (')' :: rest)) =
      (splitArrow? rest).map fun (l, r) => (Sexpr.itemTextOnto xs (')' :: l), r) := by
  match xs with
  | [] => exact splitArrow?_cons_of_ne (by decide)
  | x :: xs =>
    have hx : ∀ w ∈ x.atoms, ¬ arrow <:+: w.toList := fun w hw =>
      hs w (List.mem_append_left _ hw)
    rw [Sexpr.itemTextOnto, splitArrow?_cons_of_ne (by decide),
      splitArrow?_textOnto x hx Sexpr.apart_itemTextOnto,
      splitArrow?_itemTextOnto xs fun w hw => hs w (List.mem_append_right _ hw),
      Option.map_map, Option.map_map]
    rfl

end

/-! ## The guard -/

def whenWord : List Char := ['w', 'h', 'e', 'n']

/-- Where no guard starts, the search goes on. -/
theorem splitWhen?_cons (h : depth = 0 → apart = true → whenWord <+: c :: cs →
    (cs.drop 3).head?.all Text.isBlank = false) :
    splitWhen? depth apart (c :: cs) =
      (splitWhen? (if c == '(' then depth + 1 else if c == ')' then depth - 1 else depth)
        (Text.isBlank c) cs).map fun (l, r) => (c :: l, r) := by
  rw [splitWhen?, if_neg]
  simp only [Bool.and_eq_true, beq_iff_eq, List.isPrefixOf_iff_prefix, not_and,
    Bool.not_eq_true]
  exact fun ⟨⟨hd, ha⟩, hp⟩ => h hd ha hp

theorem splitWhen?_cons_of_ne (h : c ≠ 'w') :
    splitWhen? depth apart (c :: cs) =
      (splitWhen? (if c == '(' then depth + 1 else if c == ')' then depth - 1 else depth)
        (Text.isBlank c) cs).map fun (l, r) => (c :: l, r) :=
  splitWhen?_cons fun _ _ hp => absurd (List.cons_prefix_cons.1 hp).1.symm h

/-- A character of a word changes no depth. -/
theorem splitWhen?_cons_word (hc : isWordChar c = true)
    (h : depth = 0 → apart = true → whenWord <+: c :: cs →
      (cs.drop 3).head?.all Text.isBlank = false) :
    splitWhen? depth apart (c :: cs) =
      (splitWhen? depth false cs).map fun (l, r) => (c :: l, r) := by
  have hb := Sexpr.isBlank_of_isWordChar hc
  simp only [isWordChar, Bool.and_eq_true, bne_iff_ne] at hc
  rw [splitWhen?_cons h, if_neg (by simpa using hc.1.2), if_neg (by simpa using hc.2), hb]

theorem splitWhen?_append (hcs : ∀ c ∈ cs, isWordChar c = true) :
    splitWhen? depth false (cs ++ rest) =
      (splitWhen? depth false rest).map fun (l, r) => (cs ++ l, r) := by
  induction cs with
  | nil => simp
  | cons c cs ih =>
    rw [List.cons_append, splitWhen?_cons_word (hcs c List.mem_cons_self) (by simp),
      ih fun d hd => hcs d (List.mem_cons_of_mem _ hd), Option.map_map]
    rfl

/-- A word that only starts with `when`, or is a part of it, starts no guard. -/
theorem not_blank_of_starts (hw : IsWord (c :: cs)) (hne : c :: cs ≠ whenWord)
    (h : Apart rest) (hp : whenWord <+: c :: (cs ++ rest)) :
    ((cs ++ rest).drop 3).head?.all Text.isBlank = false := by
  obtain ⟨t, ht⟩ := hp
  match cs with
  | [] =>
    cases ht
    exact absurd (h 'h' rfl) (by decide)
  | [a] =>
    cases ht
    exact absurd (h 'e' rfl) (by decide)
  | [a, b] =>
    cases ht
    exact absurd (h 'n' rfl) (by decide)
  | [a, b, d] =>
    cases ht
    exact absurd rfl hne
  | a :: b :: d :: e :: cs => simpa using Sexpr.isBlank_of_isWordChar (hw.2 e (by simp))

theorem splitWhen?_word (hw : IsWord w) (h : Apart rest) (hne : depth = 0 → w ≠ whenWord) :
    splitWhen? depth apart (w ++ rest) =
      (splitWhen? depth false rest).map fun (l, r) => (w ++ l, r) := by
  cases w with
  | nil => exact absurd rfl hw.1
  | cons c cs =>
    rw [List.cons_append, splitWhen?_cons_word (hw.2 c List.mem_cons_self) fun hd _ =>
      not_blank_of_starts hw (hne hd) h, splitWhen?_append fun d hd =>
        hw.2 d (List.mem_cons_of_mem _ hd), Option.map_map]
    rfl

mutual

/-- The search for the guard passes over a printed s-expression, the word `when` apart. -/
theorem splitWhen?_textOnto (s : Sexpr) (hs : s.Wordy) {depth : Int} (hd : 0 ≤ depth)
    (hne : depth = 0 → s ≠ .atom "when") {rest : List Char} (h : Apart rest) (apart : Bool) :
    splitWhen? depth apart (s.textOnto rest) =
      (splitWhen? depth false rest).map fun (l, r) => (s.textOnto l, r) := by
  match s with
  | .atom w =>
    refine splitWhen?_word (Sexpr.wordy_atom.1 hs) h fun h0 he => hne h0 ?_
    rw [← String.ofList_toList (s := w), he]
    rfl
  | .list [] =>
    have hitems := splitWhen?_itemTextOnto [] (List.forall_mem_nil _)
      (show 0 < depth + 1 by omega) rest
    rw [Int.add_sub_cancel] at hitems
    rw [Sexpr.textOnto, splitWhen?_cons_of_ne (by decide), if_pos (by decide),
      show Text.isBlank '(' = false by decide, show ')' :: rest = Sexpr.itemTextOnto [] _ from rfl,
      hitems, Option.map_map]
    rfl
  | .list (x :: xs) =>
    have hx := Sexpr.wordy_list.1 hs
    rw [Sexpr.textOnto, splitWhen?_cons_of_ne (by decide), if_pos (by decide),
      splitWhen?_textOnto x (hx x List.mem_cons_self) (by omega) (by omega)
        Sexpr.apart_itemTextOnto _,
      splitWhen?_itemTextOnto xs (fun y hy => hx y (List.mem_cons_of_mem _ hy)) (by omega) rest,
      Option.map_map, Option.map_map, Int.add_sub_cancel]
    rfl

/-- Behind an item, the search goes on to the end of the list. -/
theorem splitWhen?_itemTextOnto (xs : List Sexpr) (hs : ∀ x ∈ xs, x.Wordy) {depth : Int}
    (hd : 0 < depth) (rest : List Char) :
    splitWhen? depth false (Sexpr.itemTextOnto xs (')' :: rest)) =
      (splitWhen? (depth - 1) false rest).map fun (l, r) =>
        (Sexpr.itemTextOnto xs (')' :: l), r) := by
  match xs with
  | [] =>
    rw [Sexpr.itemTextOnto, splitWhen?_cons_of_ne (by decide), if_neg (by decide),
      if_pos (by decide), show Text.isBlank ')' = false by decide]
    rfl
  | x :: xs =>
    rw [Sexpr.itemTextOnto, splitWhen?_cons_of_ne (by decide), if_neg (by decide),
      if_neg (by decide),
      splitWhen?_textOnto x (hs x List.mem_cons_self) (by omega) (by omega)
        Sexpr.apart_itemTextOnto _,
      splitWhen?_itemTextOnto xs (fun y hy => hs y (List.mem_cons_of_mem _ hy)) hd rest,
      Option.map_map, Option.map_map]
    rfl

end

/-- The guard of an equation with its word in front, as the equation's text ends. -/
def guardText : Option Guard → List Char
  | none => []
  | some guard => ' ' :: whenWord ++ ' ' :: guard.text.toList

/-- The guard's text, with the blank in front of it that the search leaves. -/
theorem splitWhen?_guardText (guard : Option Guard) :
    splitWhen? 0 false (guardText guard) =
      guard.map fun guard => ([' '], ' ' :: guard.text.toList) := by
  cases guard with
  | none => rfl
  | some guard =>
    rw [guardText, List.cons_append, splitWhen?_cons_of_ne (by decide), if_neg (by decide),
      if_neg (by decide), whenWord, List.cons_append, splitWhen?, if_pos (by
        simp [show Text.isBlank ' ' = true by decide])]
    rfl

/-! ## Equations -/

variable {r : Rule} {guard : Guard}

/-- The text of a guard on a word is that of a list of two words. -/
theorem guard_text_eq (guard : Guard) : guard.text =
    (Sexpr.list [.atom guard.condition.name, .atom (Pattern.buildSigil ++ guard.var)]).text := by
  simp [Guard.text, Sexpr.text, Sexpr.textOnto, Sexpr.itemTextOnto, String.ext_iff]

theorem wordy_guard (hv : IsWord guard.var.toList) :
    (Sexpr.list [.atom guard.condition.name, .atom (Pattern.buildSigil ++ guard.var)]).Wordy := by
  have hname : ∀ condition : Condition, IsWord condition.name.toList := by rintro ⟨⟩; decide
  have hsigil : isWordChar ':' = true := by decide
  simp only [Sexpr.wordy_list, List.forall_mem_cons, Sexpr.wordy_atom, List.not_mem_nil,
    false_imp_iff, implies_true, and_true]
  refine ⟨hname _, ?_⟩
  rw [String.toList_append]
  exact ⟨by simp [Pattern.buildSigil], List.forall_mem_cons.2 ⟨hsigil, hv.2⟩⟩

theorem readGuard_text (hv : IsWord guard.var.toList) : readGuard guard.text = .ok guard := by
  have hname : ∀ condition : Condition, Condition.ofName? condition.name = some condition := by
    rintro ⟨⟩; decide
  have hword : (Pattern.buildSigil ++ guard.var).toList = ':' :: guard.var.toList := by
    rw [String.toList_append]
    rfl
  rw [readGuard, guard_text_eq, Sexpr.read_text (wordy_guard hv)]
  simp [hword, hname]

theorem trimmed_guard (hv : IsWord guard.var.toList) : Text.Trimmed guard.text.toList := by
  rw [guard_text_eq]
  exact Sexpr.trimmed_text (wordy_guard hv)

/-- The equation of the rule reads back from its text: no arrow stands in the left side, and the
right side is not the word that introduces a guard. -/
structure Legible (r : Rule) : Prop where
  lhs : r.lhs.Readable
  rhs : r.rhs.Readable
  lhs_arrow : ∀ w ∈ (r.lhs.toSexpr Pattern.matchSigil).atoms, ¬ arrow <:+: w.toList
  rhs_ne : r.rhs ≠ .leaf (.var "when")

/-- The left side binds the variable of the guard, so that is a word too. -/
theorem Legible.isWord_guard (h : r.Legible) : ∀ guard ∈ r.guard, IsWord guard.var.toList :=
  fun _ hg => Pattern.isWord_of_mem_vars h.lhs (r.guard_bound _ (Option.mem_map_of_mem _ hg))

theorem toList_text (r : Rule) : r.text.toList =
    (r.lhs.toSexpr Pattern.matchSigil).textOnto
      (' ' :: '=' :: '>' :: ' ' ::
        (r.rhs.toSexpr Pattern.buildSigil).textOnto (guardText r.guard)) := by
  rw [Sexpr.textOnto_eq, Sexpr.textOnto_eq, text]
  cases r.guard <;> simp [guardText, whenWord, Pattern.text]

/-- The patterns that print as a single word. -/
theorem toSexpr_ne_when {p : Pattern} (hp : p ≠ .leaf (.var "when")) :
    p.toSexpr Pattern.buildSigil ≠ .atom "when" := by
  intro h
  cases p with
  | hole x =>
    have := congrArg String.toList (Sexpr.atom.inj h)
    rw [String.toList_append] at this
    cases this
  | leaf l =>
    cases l with
    | const c =>
      have hc := Constant.parse?_text c
      have hnone : Constant.parse? "when" = none := by decide
      rw [show c.text = "when" from Sexpr.atom.inj h, hnone] at hc
      cases hc
    | var x => exact hp (by rw [show x = "when" from Sexpr.atom.inj h])
  | unary op p => cases h
  | binary op p q => cases h

theorem make_eq {guard : Option Guard} (hg : r.guard = guard) :
    make r.name r.lhs r.rhs guard r.description = .ok { r with tags := [] } := by
  subst hg
  rw [make]
  split
  · next x hx =>
    have := List.find?_some hx
    simp [r.rhs_bound x (List.mem_of_find?_eq_some hx)] at this
  · split
    · next x hx =>
      obtain ⟨hg, hx⟩ := Option.filter_eq_some_iff.1 hx
      simp [r.guard_bound x hg] at hx
    · rfl

theorem apart_guardText (guard : Option Guard) : Apart (guardText guard) := by
  cases guard with
  | none => exact Sexpr.apart_nil
  | some guard => exact Sexpr.apart_cons (by decide)

/-- A guard ends with a parenthesis, so nothing is cut off the text that it ends. -/
theorem trimmed_textOnto_guardText {s : Sexpr} {guard : Option Guard} (hs : s.Wordy)
    (hg : ∀ condition ∈ guard, IsWord condition.var.toList) :
    Text.Trimmed (s.textOnto (guardText guard)) := by
  have ht := Sexpr.trimmed_text hs
  rw [Sexpr.textOnto_eq]
  cases guard with
  | none => simpa [guardText] using ht
  | some guard =>
    have hguard := trimmed_guard (hg guard rfl)
    have hne := Sexpr.text_ne_nil (wordy_guard (hg guard rfl))
    rw [← guard_text_eq] at hne
    simpa [guardText] using ht.append hguard (Sexpr.text_ne_nil hs) hne (' ' :: whenWord ++ [' '])

/-- Nothing is cut off the text of an equation, and it is one line. -/
theorem Legible.trimmed_text (h : r.Legible) :
    Text.Trimmed r.text.toList ∧ r.text.toList ≠ [] ∧ '\n' ∉ r.text.toList := by
  have hguard := h.isWord_guard
  have hl := Pattern.wordy_toSexpr (.inl rfl) h.lhs
  have hr := Pattern.wordy_toSexpr (.inr rfl) h.rhs
  have hright := trimmed_textOnto_guardText hr hguard
  have hne : (r.rhs.toSexpr Pattern.buildSigil).textOnto (guardText r.guard) ≠ [] := by
    rw [Sexpr.textOnto_eq]
    exact List.append_ne_nil_of_left_ne_nil (Sexpr.text_ne_nil hr) _
  refine ⟨?_, ?_, fun hmem => ?_⟩
  · rw [toList_text, Sexpr.textOnto_eq]
    exact (Sexpr.trimmed_text hl).append hright (Sexpr.text_ne_nil hl) hne [' ', '=', '>', ' ']
  · rw [toList_text, Sexpr.textOnto_eq]
    exact List.append_ne_nil_of_left_ne_nil (Sexpr.text_ne_nil hl) _
  · rw [toList_text] at hmem
    have hmem := Sexpr.break_mem_of_textOnto _ hr
      (by simpa using Sexpr.break_mem_of_textOnto _ hl hmem)
    cases hg : r.guard with
    | none => simp [hg, guardText] at hmem
    | some guard =>
      have hw := wordy_guard (hguard guard hg)
      rw [hg, guardText, guard_text_eq, Sexpr.text, String.toList_ofList] at hmem
      have := Sexpr.break_mem_of_textOnto _ hw (by simpa [whenWord] using hmem)
      cases this

/-- How the text behind the arrow falls into the text of the right side and the guard. -/
inductive Behind (right : List Char) : List Char → Option Guard → Prop
  | alone : splitWhen? 0 true right = none → Behind right right none
  | guarded {side text : List Char} {guard : Guard} : splitWhen? 0 true right = some (side, text) →
      readGuard (String.ofList (Text.strip text)) = .ok guard →
      Behind right (Text.strip side) (some guard)

/-- All that reading an equation does. -/
theorem ofHeader_eq_ok_iff {h : Header} : ofHeader h = .ok r ↔
    ∃ left right side guard lhs rhs, splitArrow? h.body = some (left, right) ∧
      Behind (Text.strip right) side guard ∧
      Pattern.read Pattern.matchSigil (String.ofList (Text.strip left)) = .ok lhs ∧
      Pattern.read Pattern.buildSigil (String.ofList side) = .ok rhs ∧
      make h.name lhs rhs guard h.description = .ok r := by
  constructor
  · intro hr
    rw [ofHeader] at hr
    split at hr
    · next left right harrow =>
      dsimp only at hr
      have hsides : ∃ side guard, Behind (Text.strip right) side guard ∧ (do
          let lhs ← (Pattern.read Pattern.matchSigil (String.ofList (Text.strip left))).mapError
            LineError.pattern
          let rhs ← (Pattern.read Pattern.buildSigil (String.ofList side)).mapError .pattern
          (make h.name lhs rhs guard h.description).mapError .unbound) = .ok r := by
        split at hr
        · next hwhen =>
          obtain ⟨guard, hguard, hr⟩ := exists_of_bind_eq_ok hr
          exact ⟨_, _, .guarded hwhen hguard, hr⟩
        · next hwhen => exact ⟨_, _, .alone hwhen, hr⟩
      obtain ⟨side, guard, hbehind, hr⟩ := hsides
      obtain ⟨lhs, hlhs, hr⟩ := exists_of_bind_eq_ok hr
      obtain ⟨rhs, hrhs, hr⟩ := exists_of_bind_eq_ok hr
      exact ⟨left, right, side, guard, lhs, rhs, harrow, hbehind, eq_ok_of_mapError hlhs,
        eq_ok_of_mapError hrhs, eq_ok_of_mapError hr⟩
    · cases hr
  · rintro ⟨left, right, side, guard, lhs, rhs, harrow, hbehind, hlhs, hrhs, hmake⟩
    cases hbehind with
    | alone hwhen =>
      simp only [ofHeader, harrow, hwhen, hlhs, pure, Except.pure, bind, Except.bind, hrhs, hmake,
        Except.mapError]
    | guarded hwhen hguard =>
      simp only [ofHeader, harrow, hwhen, hguard, hlhs, pure, Except.pure, bind, Except.bind, hrhs,
        hmake, Except.mapError]

/-- The text of a legible equation reads as the equation. -/
theorem ofHeader_text (h : r.Legible) :
    ofHeader ⟨r.name, r.description, r.text.toList⟩ = .ok { r with tags := [] } := by
  obtain ⟨guard, hg⟩ : ∃ guard, r.guard = guard := ⟨_, rfl⟩
  have hguard : ∀ condition ∈ guard, IsWord condition.var.toList := hg ▸ h.isWord_guard
  have hl := Pattern.wordy_toSexpr (.inl rfl) h.lhs
  have hr := Pattern.wordy_toSexpr (.inr rfl) h.rhs
  have hwhen := splitWhen?_textOnto (r.rhs.toSexpr Pattern.buildSigil) hr (Int.le_refl 0)
    (fun _ => toSexpr_ne_when h.rhs_ne) (apart_guardText guard) true
  rw [splitWhen?_guardText] at hwhen
  refine ofHeader_eq_ok_iff.2 ⟨(r.lhs.toSexpr Pattern.matchSigil).textOnto [' '],
    ' ' :: (r.rhs.toSexpr Pattern.buildSigil).textOnto (guardText guard),
    (r.rhs.text Pattern.buildSigil).toList, guard, r.lhs, r.rhs, ?_, ?_, ?_, ?_, make_eq hg⟩
  · rw [toList_text, hg, splitArrow?_textOnto _ h.lhs_arrow (Sexpr.apart_cons (by decide)),
      splitArrow?_cons_of_ne (by decide)]
    rfl
  · rw [Text.strip_cons (trimmed_textOnto_guardText hr hguard)]
    cases guard with
    | none =>
      have hside : (r.rhs.toSexpr Pattern.buildSigil).textOnto (guardText none) =
          (r.rhs.text Pattern.buildSigil).toList := by
        rw [Pattern.text, Sexpr.text, String.toList_ofList, guardText]
      rw [hside] at hwhen ⊢
      exact .alone hwhen
    | some guard =>
      have hstrip := Sexpr.strip_textOnto hr
      have htext := Text.strip_cons (trimmed_guard (hguard guard rfl))
      rw [Pattern.text, ← hstrip, String.toList_ofList]
      refine .guarded hwhen ?_
      rw [htext, String.ofList_toList]
      exact readGuard_text (hguard guard rfl)
  · rw [Sexpr.strip_textOnto hl]
    exact Pattern.read_text (.inl rfl) h.lhs
  · rw [String.ofList_toList]
    exact Pattern.read_text (.inr rfl) h.rhs

/-! ## What is read is legible -/

theorem eq_of_splitWhen? (h : splitWhen? depth apart cs = some (l, w)) :
    cs = l ++ whenWord ++ w := by
  induction cs generalizing depth apart l with
  | nil => cases h
  | cons c cs ih =>
    rw [splitWhen?] at h
    split at h
    · next hmatch =>
      cases h
      simp only [Bool.and_eq_true, List.isPrefixOf_iff_prefix] at hmatch
      obtain ⟨t, ht⟩ := hmatch.1.2
      cases ht
      rfl
    · obtain ⟨⟨l', w'⟩, h', he⟩ := Option.map_eq_some_iff.1 h
      cases he
      rw [ih h']
      rfl

/-- The word stands at the start or behind a blank. -/
theorem isBlank_getLast_of_splitWhen? (h : splitWhen? depth apart cs = some (l, w)) :
    (l = [] → apart = true) ∧ ∀ c ∈ l.getLast?, Text.isBlank c = true := by
  induction cs generalizing depth apart l with
  | nil => cases h
  | cons c cs ih =>
    rw [splitWhen?] at h
    split at h
    · next hmatch =>
      cases h
      simp only [Bool.and_eq_true] at hmatch
      exact ⟨fun _ => hmatch.1.1.2, by simp⟩
    · obtain ⟨⟨l', w'⟩, h', he⟩ := Option.map_eq_some_iff.1 h
      cases he
      obtain ⟨hfirst, hlast⟩ := ih h'
      cases l' with
      | nil => simpa using hfirst rfl
      | cons d ds => simpa using hlast

theorem Behind.trimmed {guard : Option Guard} (h : Behind (Text.strip cs) l guard) :
    Text.Trimmed l := by
  cases h with
  | alone _ => exact Text.trimmed_strip cs
  | guarded _ _ => exact Text.trimmed_strip _

/-- The text of the right side is never the word that introduces a guard. -/
theorem Behind.ne_when {guard : Option Guard} (h : Behind (Text.strip cs) l guard) :
    l ≠ whenWord := by
  intro hl
  cases h with
  | alone hnone =>
    rw [hl] at hnone
    exact absurd hnone (by decide)
  | @guarded side text guard hwhen _ =>
    obtain ⟨front, back, hf, hb, hside⟩ := Text.exists_between_blanks side
    have hcs := eq_of_splitWhen? hwhen
    rw [hl] at hside
    -- nothing stands in front of the word, and a blank behind it: it would have been found
    have hfront : front = [] := by
      cases front with
      | nil => rfl
      | cons c front =>
        have hhead := (Text.trimmed_strip cs).1 c (by rw [hcs, hside]; rfl)
        rw [hf c List.mem_cons_self] at hhead
        cases hhead
    subst hfront
    cases back with
    | nil =>
      have hlast := (isBlank_getLast_of_splitWhen? hwhen).2 'n' (by rw [hside]; rfl)
      exact absurd hlast (by decide)
    | cons c back =>
      rw [hcs, hside, whenWord] at hwhen
      simp [splitWhen?, hb c List.mem_cons_self] at hwhen

theorem of_make {name : String} {lhs rhs : Pattern} {guard : Option Guard} {d : Option String}
    (h : make name lhs rhs guard d = .ok r) :
    r.name = name ∧ r.lhs = lhs ∧ r.rhs = rhs ∧ r.description = d ∧ r.tags = [] := by
  rw [make] at h
  split at h
  · cases h
  · split at h
    · cases h
    · cases h
      exact ⟨rfl, rfl, rfl, rfl, rfl⟩

/-- What is read is legible. -/
theorem legible_of_ofHeader {h : Header} (hr : ofHeader h = .ok r) :
    r.Legible ∧ r.name = h.name ∧ r.description = h.description ∧ r.tags = [] := by
  obtain ⟨left, right, side, guard, lhs, rhs, harrow, hbehind, hlhs, hrhs, hmake⟩ :=
    ofHeader_eq_ok_iff.1 hr
  obtain ⟨hname, rfl, rfl, hd, htags⟩ := of_make hmake
  obtain ⟨hl, hlatoms⟩ := Pattern.readable_of_read (.inl rfl) hlhs
  obtain ⟨hr, -⟩ := Pattern.readable_of_read (.inr rfl) hrhs
  refine ⟨⟨hl, hr, fun w hw hin => ?_, fun he => ?_⟩, hname, hd, htags⟩
  · rcases hlatoms w hw with hpart | ⟨c, rfl⟩
    · rw [String.toList_ofList] at hpart
      exact not_arrow_infix_of_splitArrow? harrow
        (hin.trans (hpart.trans (Text.strip_isInfix left)))
    · have hc := Constant.isAlphanum_or_sign (hin.subset (show '=' ∈ arrow by decide))
      exact absurd hc (by decide)
  · rw [he] at hrhs
    obtain ⟨front, back, hf, hb, hside⟩ := Pattern.eq_of_read_var (.inr rfl) hrhs
    have hword : Text.Trimmed "when".toList := by decide
    have hstrip := Text.strip_between hf hb hword
    rw [← hside, String.toList_ofList, Text.strip_of_trimmed hbehind.trimmed] at hstrip
    exact hbehind.ne_when hstrip

end Rule

end EqSat
