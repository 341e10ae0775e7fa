import EqSat.Rule.Loading
import EqSat.Proofs.Printing.Equation

/-!
# Printed rules

A rule is writable if its equation is legible, its name is made of the characters of names, and its
description can stand between quotes.  A writable rule that has a name prints as a line that reads as
the rule without its group, and a rule that was read from a line is writable.  It is printable if
what it prints as is one line of a list, and it belongs to one group at most, whose name can stand
between brackets.

    ofLine_line              the line of a rule reads as the rule
    writable_of_ofLine       the rule of a line is writable
    ofLine_line_of_ofLine    so a line that was read comes back
    printable_of_ofLine      the rule of one line is printable
-/

namespace EqSat.Rule

open Sexpr (IsWord Wordy isWordChar)

/-- A text that can stand between the quotes of a line. -/
structure Quotable (d : String) : Prop where
  ne_empty : d ≠ ""
  not_quote : '"' ∉ d.toList

/-- A text that can stand between the brackets of a line, and does not end the group. -/
structure Bracketable (g : String) : Prop where
  ne_empty : g ≠ ""
  trimmed : Text.Trimmed g.toList
  not_break : '\n' ∉ g.toList

/-- The rule can be printed and read again.  Its description may run over several lines. -/
structure Writable (r : Rule) : Prop extends Legible r where
  name : ∀ c ∈ r.name.toList, isNameChar c = true
  description : ∀ d ∈ r.description, Quotable d

/-- The rule can be printed and read again as a part of a list. -/
structure Printable (r : Rule) : Prop extends Writable r where
  one_line : ∀ d ∈ r.description, '\n' ∉ d.toList
  tags : r.tags = [] ∨ ∃ g, r.tags = [g] ∧ Bracketable g

variable {r : Rule} {cs rest body d : List Char} {source : String} {h : Header}

/-! ## Writing -/

/-- What a line has between the name and the colon. -/
def quotedText : Option String → List Char
  | none => []
  | some d => ' ' :: '"' :: (d.toList ++ ['"'])

theorem toList_line (hd : ∀ d ∈ r.description, Quotable d) : r.line.toList =
    '@' :: (r.name.toList ++ (quotedText r.description ++ ':' :: ' ' :: r.text.toList)) := by
  rw [line]
  cases hr : r.description with
  | none => simp [quotedText]
  | some d => simp [quotedText, (hd d hr).ne_empty]

/-- A run of characters ends where the first other one stands. -/
theorem span_stop {p : Char → Bool} {c : Char} (hcs : ∀ c ∈ cs, p c = true) (hc : p c = false)
    (rest : List Char) :
    (cs ++ c :: rest).takeWhile p = cs ∧ (cs ++ c :: rest).dropWhile p = c :: rest := by
  rw [List.takeWhile_append_of_pos hcs, List.dropWhile_append_of_pos hcs]
  simp [hc]

theorem bodyAfterColon?_cons (hb : Text.Trimmed body) (hne : body ≠ []) (hbreak : '\n' ∉ body) :
    bodyAfterColon? (' ' :: body) = some body := by
  have hdrop : (' ' :: body).dropWhile Text.isBlank = body :=
    Text.dropWhile_front Text.isBlank_space hb.1
  have hline : ∀ c ∈ body, (c != '\n') = true := fun c hc => by
    simpa using fun he : c = '\n' => hbreak (he ▸ hc)
  have htake : (body ++ []).takeWhile (· != '\n') = body ++ [].takeWhile (· != '\n') :=
    List.takeWhile_append_of_pos hline
  rw [List.takeWhile_nil, List.append_nil] at htake
  simp [bodyAfterColon?, hdrop, htake, hne]

/-- The description ends at the second quote. -/
theorem describedBody?_quoted (hq : '"' ∉ d) (hne : d ≠ [])
    (hb : bodyAfterColon? rest = some body) :
    describedBody? (' ' :: '"' :: (d ++ '"' :: ':' :: rest)) = some (d, body) := by
  have hspan : ∀ c ∈ d, (c != '"') = true := fun c hc => by
    simpa using fun he : c = '"' => hq (he ▸ hc)
  obtain ⟨htake, hdrop⟩ := span_stop hspan (c := '"') (by decide) (':' :: rest)
  have hempty : d.isEmpty = false := by simpa using hne
  have hblank : Text.isBlank ' ' = true := by decide
  have hquote : Text.isBlank '"' = false := by decide
  simp [describedBody?, hblank, hquote, htake, hdrop, hempty, hb]

/-- The head of a line, with or without a description. -/
theorem header?_line (hp : r.Writable) (hn : r.name ≠ "") :
    header? r.line.toList = some ⟨r.name, r.description, r.text.toList⟩ := by
  obtain ⟨htrim, hne, hbreak⟩ := hp.toLegible.trimmed_text
  have hbody := bodyAfterColon?_cons htrim hne hbreak
  have hname : r.name.toList ≠ [] := by simpa using hn
  rw [toList_line hp.description]
  cases hd : r.description with
  | none =>
    obtain ⟨htake, hdrop⟩ := span_stop hp.name (c := ':') (by decide) (' ' :: r.text.toList)
    have hnone : describedBody? (':' :: ' ' :: r.text.toList) = none := rfl
    simp [header?, quotedText, htake, hdrop, hname, hnone, hbody]
  | some d =>
    have hquoted := hp.description d hd
    have hdescribed := describedBody?_quoted hquoted.not_quote
      (by simpa using hquoted.ne_empty) hbody
    obtain ⟨htake, hdrop⟩ := span_stop hp.name (c := ' ') (by decide)
      ('"' :: (d.toList ++ '"' :: ':' :: ' ' :: r.text.toList))
    simp [header?, quotedText, htake, hdrop, hname, hdescribed]

theorem trimmed_line (hp : r.Writable) : Text.Trimmed r.line.toList := by
  obtain ⟨htrim, hne, -⟩ := hp.toLegible.trimmed_text
  have hat : Text.Trimmed ['@'] := by decide
  rw [toList_line hp.description]
  simpa using hat.append htrim (by simp) hne
    (r.name.toList ++ (quotedText r.description ++ [':', ' ']))

/-- The line of a writable rule reads as the rule without its group. -/
theorem ofLine_line (hp : r.Writable) (hn : r.name ≠ "") :
    ofLine r.line = .ok (some { r with tags := [] }) := by
  have hat : ∃ cs, r.line.toList = '@' :: cs := ⟨_, toList_line hp.description⟩
  have hread := ofHeader_text hp.toLegible
  have hheader := header?_line hp hn
  obtain ⟨cs, hcs⟩ := hat
  rw [ofLine, Text.strip_of_trimmed (trimmed_line hp)]
  rw [hcs] at hheader ⊢
  simp [hheader, hread]

/-- A printable rule prints as one line. -/
theorem not_break_line (hp : r.Printable) : '\n' ∉ r.line.toList := by
  have hname : '\n' ∉ r.name.toList := fun hmem => absurd (hp.name _ hmem) (by decide)
  have hquoted : '\n' ∉ quotedText r.description := by
    cases hd : r.description with
    | none => simp [quotedText]
    | some d => simpa [quotedText] using hp.one_line d hd
  rw [toList_line hp.description]
  simp [hname, hquoted, hp.toLegible.trimmed_text.2.2]

/-! ## Reading -/

/-- A description that was found stands between quotes, and is a part of the line. -/
theorem of_describedBody? (hd : describedBody? cs = some (d, body)) :
    d ≠ [] ∧ '"' ∉ d ∧ ∀ c ∈ d, c ∈ cs := by
  rw [describedBody?] at hd
  split at hd
  · next rest _ hrest =>
    dsimp only at hd
    split at hd
    · next hempty _ =>
      obtain ⟨body', -, he⟩ := Option.map_eq_some_iff.1 hd
      cases he
      refine ⟨by simpa using hempty, fun hmem => ?_, fun c hc => ?_⟩
      · have hne := List.all_eq_true.1 List.all_takeWhile '"' hmem
        simp at hne
      · have htake := List.takeWhile_prefix (l := rest) (· != '"')
        have hmem : c ∈ cs.dropWhile Text.isBlank :=
          hrest ▸ List.mem_cons_of_mem _ (htake.subset hc)
        exact (List.dropWhile_suffix _).subset hmem
    · cases hd
  · cases hd

/-- The name and the description that a line starts with. -/
theorem of_header? (hh : header? cs = some h) : (∀ c ∈ h.name.toList, isNameChar c = true) ∧
    ∀ d ∈ h.description, d ≠ "" ∧ '"' ∉ d.toList ∧ ∀ c ∈ d.toList, c ∈ cs := by
  have hname : ∀ cs : List Char, ∀ c ∈ (String.ofList (cs.takeWhile isNameChar)).toList,
      isNameChar c = true := fun cs c hc =>
    List.all_eq_true.1 List.all_takeWhile c (String.toList_ofList ▸ hc)
  rw [header?.eq_def] at hh
  split at hh
  · next cs =>
    dsimp only at hh
    split at hh
    · cases hh
    · split at hh
      · next d body hd =>
        cases hh
        obtain ⟨hne, hquote, hin⟩ := of_describedBody? hd
        refine ⟨hname cs, fun _ he => ?_⟩
        cases he
        rw [String.toList_ofList]
        refine ⟨by simpa using hne, hquote, fun c hc => ?_⟩
        exact List.mem_cons_of_mem _ ((List.dropWhile_suffix _).subset (hin c hc))
      · obtain ⟨body, -, he⟩ := Option.map_eq_some_iff.1 hh
        cases he
        exact ⟨hname cs, fun _ he => by cases he⟩
      · cases hh
  · cases hh
    exact ⟨by simp, fun _ he => by cases he⟩

/-- The rule of a line is writable, and its description is a part of the line. -/
theorem writable_of_ofLine (hr : ofLine source = .ok (some r)) :
    r.Writable ∧ r.tags = [] ∧ ∀ d ∈ r.description, ∀ c ∈ d.toList, c ∈ source.toList := by
  rw [ofLine] at hr
  dsimp only at hr
  split at hr
  · cases hr
  · split at hr
    · next rule hrule =>
      cases hr
      split at hrule
      · next h hheader =>
        obtain ⟨hlegible, hname, hdesc, htags⟩ := legible_of_ofHeader hrule
        obtain ⟨hchars, hquoted⟩ := of_header? hheader
        refine ⟨⟨hlegible, hname ▸ hchars, fun d hd => ?_⟩, htags, fun d hd c hc => ?_⟩
        · obtain ⟨hne, hquote, -⟩ := hquoted d (hdesc ▸ hd)
          exact ⟨hne, hquote⟩
        · obtain ⟨-, -, hin⟩ := hquoted d (hdesc ▸ hd)
          exact (Text.strip_isInfix _).subset (hin c hc)
      · cases hrule
    · cases hr

/-- The rule of one line is printable. -/
theorem printable_of_ofLine (hr : ofLine source = .ok (some r)) (hb : '\n' ∉ source.toList) :
    r.Printable := by
  obtain ⟨hwritable, htags, hin⟩ := writable_of_ofLine hr
  exact ⟨hwritable, fun d hd hmem => hb (hin d hd _ hmem), .inl htags⟩

/-! ## Printing what was read -/

/-- **Whatever text a named rule is read from, the line that the rule prints as is read as that
rule**: the name, the description, both patterns and the guard come back. -/
theorem ofLine_line_of_ofLine (source : String) (r : Rule)
    (hr : ofLine source = .ok (some r)) (hn : r.name ≠ "") : ofLine r.line = .ok (some r) := by
  obtain ⟨hwritable, htags, -⟩ := writable_of_ofLine hr
  have hread := ofLine_line hwritable hn
  rwa [← htags] at hread

/-- A line where the words of the grammar stand in other places than theirs: a description of two
lines that holds the arrow, the guard's word and a parenthesis, and leaves and variables that are
named after them. -/
def crowdedLine : String :=
  "@when \"(when =>\n@b: ?x => :x\":(and ?when= (= ?: when))" ++
    "=>(or :when= (+ when =>)) when (is-not-zero ::)"

/-- The rule of that line. -/
def crowdedRule : Rule where
  name := "when"
  lhs := .binary .and (.hole "when=") (.binary .eq (.hole ":") (.leaf (.var "when")))
  rhs := .binary .or (.hole "when=") (.binary .add (.leaf (.var "when")) (.leaf (.var "=>")))
  guard := some ⟨.isNotZero, ":"⟩
  description := some "(when =>\n@b: ?x => :x"
  tags := []
  rhs_bound := by decide
  guard_bound := by decide

theorem ofLine_line_crowdedRule : ofLine crowdedLine = .ok (some crowdedRule) ∧
    crowdedRule.line ≠ crowdedLine ∧ ofLine crowdedRule.line = .ok (some crowdedRule) := by
  have hread : ofLine crowdedLine = .ok (some crowdedRule) :=
    eq_ok_of_toOption (by decide +kernel)
  exact ⟨hread, by decide +kernel,
    ofLine_line_of_ofLine crowdedLine crowdedRule hread (by decide)⟩

end EqSat.Rule
