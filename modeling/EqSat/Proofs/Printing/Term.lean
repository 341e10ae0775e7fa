import EqSat.Proofs.Printing.Pattern
import EqSat.Proofs.Shapes

/-!
# Printed terms

A tree is legible if its variables are words that read as the variables.  A legible tree prints as a
text that reads as the tree, and what is read is legible.  A term prints as what it unfolds to, so
sharing and nodes that the root does not reach are lost, and what is read back agrees with the term
though its list may differ.

    Tree.read_text         reading what was printed
    Tree.legible_of_read   what is read is legible
    Term.reads_back        a term and what its text reads as
-/

namespace EqSat

open Sexpr (IsWord)

variable {s : Sexpr} {source : String} {l : Leaf} {x : String}

/-! ## Trees -/

namespace Tree

variable {t u : Tree}

/-- Variables are words that read as the variables. -/
def Legible (t : Tree) : Prop :=
  ∀ x, leaf (.var x) ∈ t.parts → IsWord x.toList ∧ Leaf.ofWord? x = some (.var x)

theorem legible_leaf : (leaf l).Legible ↔
    ∀ x, l = .var x → IsWord x.toList ∧ Leaf.ofWord? x = some (.var x) := by
  simp [Legible, parts, eq_comm]

theorem legible_unary {op : UnaryOp} : (unary op t).Legible ↔ t.Legible := by
  simp [Legible, parts]

theorem legible_binary {op : BinaryOp} : (binary op t u).Legible ↔ t.Legible ∧ u.Legible := by
  simp only [Legible, parts, List.mem_cons, List.mem_append, reduceCtorEq, false_or]
  exact ⟨fun h => ⟨fun x hx => h x (.inl hx), fun x hx => h x (.inr hx)⟩,
    fun h x hx => hx.elim (h.1 x) (h.2 x)⟩

/-- The leaf of a legible tree prints as a word that reads as the leaf. -/
theorem isWord_label (h : (leaf l).Legible) :
    IsWord l.label.toList ∧ Leaf.ofWord? l.label = some l := by
  cases l with
  | const c => exact ⟨c.isWord_text, Leaf.ofWord?_label_const c⟩
  | var x => exact legible_leaf.1 h x rfl

theorem wordy_toSexpr (h : t.Legible) : t.toSexpr.Wordy := by
  induction t with
  | leaf l => exact Sexpr.wordy_atom.2 (isWord_label h).1
  | unary op t ih =>
    simp [toSexpr, Sexpr.wordy_list, Sexpr.wordy_atom, op.isWord_symbol, ih (legible_unary.1 h)]
  | binary op t u iht ihu =>
    obtain ⟨ht, hu⟩ := legible_binary.1 h
    simp [toSexpr, Sexpr.wordy_list, Sexpr.wordy_atom, op.isWord_symbol, iht ht, ihu hu]

/-- A legible tree is what its s-expression stands for. -/
theorem ofSexpr_toSexpr (h : t.Legible) : ofSexpr source t.toSexpr = .ok t := by
  induction t with
  | leaf l =>
    rw [toSexpr, ofSexpr, Leaf.read, (isWord_label h).2]
    rfl
  | unary op t ih =>
    simp only [toSexpr, ofSexpr, UnaryOp.ofSymbol?_symbol, ih (legible_unary.1 h)]
    rfl
  | binary op t u iht ihu =>
    obtain ⟨ht, hu⟩ := legible_binary.1 h
    simp only [toSexpr, ofSexpr, BinaryOp.ofSymbol?_symbol, iht ht, ihu hu]
    rfl

/-- What was printed reads as what it was printed from. -/
theorem read_text (h : t.Legible) : read t.text = .ok t := by
  rw [read, text, Sexpr.read_text (wordy_toSexpr h)]
  exact ofSexpr_toSexpr h

theorem legible_of_ofSexpr (h : ofSexpr source s = .ok t) (hw : s.Wordy) : t.Legible := by
  fun_induction ofSexpr source s generalizing t with
  | case1 word =>
    obtain ⟨l, hl, h⟩ := exists_of_bind_eq_ok h
    cases h
    rw [Leaf.read] at hl
    split at hl
    · next l' hword =>
      cases hl
      refine legible_leaf.2 fun x hx => ?_
      rw [hx] at hword
      rcases Leaf.eq_of_ofWord? hword with heq | ⟨c, hc⟩
      · cases heq
        exact ⟨Sexpr.wordy_atom.1 hw, hword⟩
      · cases hc
    · cases hl
  | case2 symbol s op hop ih =>
    obtain ⟨u, hu, h⟩ := exists_of_bind_eq_ok h
    cases h
    exact legible_unary.2 (ih hu (Sexpr.wordy_list.1 hw s (by simp)))
  | case4 symbol s r op hop ihs ihr =>
    obtain ⟨u, hu, h⟩ := exists_of_bind_eq_ok h
    obtain ⟨v, hv, h⟩ := exists_of_bind_eq_ok h
    cases h
    exact legible_binary.2 ⟨ihs hu (Sexpr.wordy_list.1 hw s (by simp)),
      ihr hv (Sexpr.wordy_list.1 hw r (by simp))⟩
  | _ => cases h

/-- What is read is legible. -/
theorem legible_of_read (h : read source = .ok t) : t.Legible := by
  rw [read] at h
  split at h
  · next s hread => exact legible_of_ofSexpr h (Sexpr.wordy_of_read hread).1
  · cases h

end Tree

/-! ## Terms -/

namespace Term

/-- There are nodes, and all variables among them are words that read as the variables, also those
that the root does not reach. -/
structure Legible (t : Term) : Prop where
  not_empty : t.isEmpty = false
  vars : ∀ x, .leaf (.var x) ∈ t.nodes → IsWord x.toList ∧ Leaf.ofWord? x = some (.var x)

variable {t u : Term}

/-- The nodes of a legible term unfold to legible trees. -/
theorem Legible.treeAt (h : t.Legible) (i : Nat) (hi : i < t.size) : (t.treeAt i).Legible := by
  induction i using Nat.strong_induction_on with
  | _ i ih =>
    obtain ⟨n, hn⟩ := exists_node hi
    have hchild : ∀ c ∈ n.children, (t.treeAt c).Legible := by
      intro c hc
      have hlt := lt_of_mem_children hn hc
      exact ih c hlt (Nat.lt_trans hlt hi)
    rw [t.steps_treeAt i n hn]
    cases n with
    | leaf l =>
      refine Tree.legible_leaf.2 fun x hx => h.vars x ?_
      rw [← hx]
      exact Array.mem_of_getElem? hn
    | unary op a => exact Tree.legible_unary.2 (hchild a (by simp [Node.children]))
    | binary op a b =>
      exact Tree.legible_binary.2 ⟨hchild a (by simp [Node.children]),
        hchild b (by simp [Node.children])⟩

/-- A legible tree laid out is a legible term. -/
theorem legible_ofTree {v : Tree} (h : v.Legible) : (ofTree v).Legible where
  not_empty := (treeAt_of_tree? (tree?_ofTree v)).1
  vars := by
    intro x hx
    obtain ⟨i, hi⟩ := Array.mem_iff_getElem?.1 hx
    have hlt : i < (ofTree v).size := (Array.getElem?_eq_some_iff.1 hi).1
    refine h x (mem_parts_of_ofTree (i := i) ?_)
    rw [treeAt?, getElem_values (ofTree v).steps_treeAt hlt, (ofTree v).steps_treeAt i _ hi]
    rfl

/-- The text of a legible term reads as the tree that it unfolds to, laid out. -/
theorem Legible.read_text (h : t.Legible) :
    ∃ v, t.tree? = some v ∧ read t.text = .ok (ofTree v) := by
  have htree := tree?_eq t h.not_empty
  refine ⟨_, htree, ?_⟩
  rw [read, text, htree, Option.map_some, Option.getD_some,
    Tree.read_text (h.treeAt _ (size_sub_one_lt h.not_empty))]
  rfl

/-- **A term and its text.**  The text of a legible term reads as a term that agrees with it.  What
is read is legible, and its own text reads as the very same term. -/
theorem reads_back :
    (∀ t : Term, t.Legible → ∃ u, read t.text = .ok u ∧ u.agrees t = true) ∧
    ∀ source u, read source = .ok u →
      u.Legible ∧ read u.text = .ok u ∧ u.agrees u = true := by
  constructor
  · intro t h
    obtain ⟨v, htree, hread⟩ := h.read_text
    refine ⟨ofTree v, hread, ?_⟩
    rw [agrees_iff, tree?_ofTree, htree]
  · intro source u h
    rw [read] at h
    cases hread : Tree.read source with
    | error e =>
      rw [hread] at h
      cases h
    | ok v =>
      rw [hread] at h
      cases h
      have hlegible := legible_ofTree (Tree.legible_of_read hread)
      obtain ⟨v', htree, hread'⟩ := hlegible.read_text
      rw [tree?_ofTree] at htree
      cases htree
      exact ⟨hlegible, hread', (agrees_iff _ _).2 rfl⟩

/-- A product with one factor, a sum of one summand, and a variable aside. -/
def squaredSum : Term where
  nodes := #[.leaf (.var "x"), .leaf (.var "aside"), .binary .add 0 0, .binary .mul 2 2]
  ordered := by decide

/-- The text writes out what was shared.  Constants may be written in several ways, and print in
one. -/
theorem reads_back_squaredSum :
    (squaredSum.Legible ∧ squaredSum.text = "(* (+ x x) (+ x x))" ∧
      ∃ u, read squaredSum.text = .ok u ∧ u.agrees squaredSum = true ∧ u.size = 7) ∧
    ∃ u, read " (and\t(= +07 y)TRUE)" = .ok u ∧ u.Legible ∧ u.text = "(and (= 7 y) true)" ∧
      read u.text = .ok u ∧ u.agrees u = true := by
  have hlegible : squaredSum.Legible := by
    refine ⟨by decide, fun x hx => ?_⟩
    have hx : x = "x" ∨ x = "aside" := by simpa [squaredSum] using hx
    rcases hx with rfl | rfl <;> decide +kernel
  refine ⟨⟨hlegible, by decide +kernel, ?_⟩, ?_⟩
  · obtain ⟨u, hread, hagrees⟩ := reads_back.1 squaredSum hlegible
    have hsize : (read squaredSum.text).toOption.map size = some 7 := by decide +kernel
    rw [hread] at hsize
    exact ⟨u, hread, hagrees, Option.some.inj hsize⟩
  · have htext : (read " (and\t(= +07 y)TRUE)").toOption.map text =
        some "(and (= 7 y) true)" := by decide +kernel
    obtain ⟨u, hu, htext⟩ := Option.map_eq_some_iff.1 htext
    have hread := eq_ok_of_toOption hu
    obtain ⟨hlegible, hback⟩ := reads_back.2 _ u hread
    exact ⟨u, hread, hlegible, htext, hback⟩

end Term

end EqSat
