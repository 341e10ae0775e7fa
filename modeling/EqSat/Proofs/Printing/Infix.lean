import EqSat.Expr
import EqSat.Proofs.Printing.Pattern

/-!
# Infix texts

An expression is printed in a loop: a stack holds the operands that are still to be written and
the texts around them.  The first parenthesis of an operator's text is an opening one, and a leaf
has none.  What stands before that parenthesis, and between the operands, tells the operator.  So
nothing is lost, as long as variables have names without parentheses that are no constants' texts.

    render_eq              the loop writes the infix text
    infixOnto_cancel       what stands in front of a closing parenthesis, and what follows it
    infixText_eq_iff       expressions with the same infix text are equal
-/

namespace EqSat

open Sexpr (IsWord isWordChar)

variable {μ : Type} {cs front front' more more' : List Char} {p q : Char}

/-! ## The loop -/

/-- What waits on the stack to be written. -/
inductive Piece (μ : Type) where
  | text (s : String)
  | expr (e : Expr μ)

/-- The operands of the expression and the texts around them. -/
def Expr.pieces : Expr μ → List (Piece μ)
  | leaf l => [.text l.item.label]
  | unary op e =>
    if op.followsOperand then [.text "(", .expr e, .text (")" ++ op.symbol)]
    else [.text (op.symbol ++ "("), .expr e, .text ")"]
  | binary op e f =>
    [.text "(", .expr e, .text (") " ++ op.symbol ++ " ("), .expr f, .text ")"]

namespace Piece

/-- An expression outweighs its pieces. -/
def weight : Piece μ → Nat
  | text _ => 1
  | expr e => 4 * e.toTree.size

/-- The weight of a stack. -/
def load : List (Piece μ) → Nat
  | [] => 0
  | p :: stack => p.weight + load stack

theorem load_append (stack stack' : List (Piece μ)) :
    load (stack ++ stack') = load stack + load stack' := by
  induction stack with
  | nil => simp [load]
  | cons p stack ih => rw [List.cons_append, load, load, ih, Nat.add_assoc]

theorem load_pieces (e : Expr μ) : load e.pieces < (expr e).weight := by
  cases e with
  | leaf l => simp [Expr.pieces, load, weight, Expr.toTree, Tree.size]
  | unary op e =>
    rw [Expr.pieces]
    split <;> simp [load, weight, Expr.toTree, Tree.size] <;> omega
  | binary op e f => simp [Expr.pieces, load, weight, Expr.toTree, Tree.size]; omega

/-- Write the pieces behind `out`, an expression piece by piece. -/
def render : List (Piece μ) → String → String
  | [], out => out
  | .text s :: stack, out => render stack (out ++ s)
  | .expr e :: stack, out => render (e.pieces ++ stack) out
termination_by stack => load stack
decreasing_by
  · simp [load, weight]
  · rw [load_append, load]
    exact Nat.add_lt_add_right (load_pieces e) _

/-- The text of a piece in front of `rest`. -/
def onto : Piece μ → List Char → List Char
  | text s, rest => s.toList ++ rest
  | expr e, rest => e.infixOnto rest

theorem foldr_onto_pieces (e : Expr μ) (rest : List Char) :
    e.pieces.foldr onto rest = e.infixOnto rest := by
  cases e with
  | leaf l => rfl
  | unary op e =>
    rw [Expr.pieces, Expr.infixOnto]
    split <;> simp [onto]
  | binary op e f => simp [Expr.pieces, Expr.infixOnto, onto]

theorem toList_render (stack : List (Piece μ)) (out : String) :
    (render stack out).toList = out.toList ++ stack.foldr onto [] := by
  fun_induction render stack out with
  | case1 out => simp
  | case2 s stack out ih => simp [ih, onto]
  | case3 e stack out ih => rw [ih, List.foldr_append, foldr_onto_pieces]; rfl

end Piece

/-- **The loop** writes the infix text. -/
theorem Expr.render_eq (e : Expr μ) : Piece.render [.expr e] "" = e.infixText := by
  rw [← String.toList_inj, Piece.toList_render]
  simp [Piece.onto, infixText]

/-! ## The first parenthesis -/

namespace Text

/-- No parenthesis stands in the text. -/
def Plain (cs : List Char) : Prop := ∀ c ∈ cs, c ≠ '(' ∧ c ≠ ')'

-- named, as characters are finitely many and could be gone through as well
instance (cs : List Char) : Decidable (Plain cs) :=
  List.decidableBAll (fun c => c ≠ '(' ∧ c ≠ ')') cs

theorem plain_nil : Plain [] := by simp [Plain]

theorem plain_of_isWord (h : IsWord cs) : Plain cs := by
  intro c hc
  have hword := h.2 c hc
  simp only [isWordChar, Bool.and_eq_true, bne_iff_ne] at hword
  exact ⟨hword.1.2, hword.2⟩

/-- Texts that go on with a parenthesis are equal only if all their parts are. -/
theorem Plain.cancel (h : Plain front) (h' : Plain front') (hp : p = '(' ∨ p = ')')
    (hq : q = '(' ∨ q = ')') (heq : front ++ p :: more = front' ++ q :: more') :
    front = front' ∧ p = q ∧ more = more' := by
  induction front generalizing front' with
  | nil =>
    cases front' with
    | nil => simpa using heq
    | cons d front' =>
      simp only [List.nil_append, List.cons_append, List.cons.injEq] at heq
      have hd := h' d List.mem_cons_self
      rw [← heq.1] at hd
      exact absurd hp (by simp [hd])
  | cons c front ih =>
    cases front' with
    | nil =>
      simp only [List.nil_append, List.cons_append, List.cons.injEq] at heq
      have hc := h c List.mem_cons_self
      rw [heq.1] at hc
      exact absurd hq (by simp [hc])
    | cons d front' =>
      simp only [List.cons_append, List.cons.injEq] at heq
      obtain ⟨rfl, heq⟩ := heq
      obtain ⟨rfl, hrest⟩ := ih (fun x hx => h x (List.mem_cons_of_mem _ hx))
        (fun x hx => h' x (List.mem_cons_of_mem _ hx)) heq
      exact ⟨rfl, hrest⟩

end Text

open Text (Plain plain_nil plain_of_isWord)

/-! ## Leaves -/

/-- A name without parentheses that is no constant's text. -/
structure Nameable (s : String) : Prop where
  plain : Plain s.toList
  not_text : ∀ c : Constant, c.text ≠ s

theorem Constant.forall_text_ne_iff {s : String} :
    (∀ c : Constant, c.text ≠ s) ↔ ∀ c ∈ Constant.parse? s, c.text ≠ s := by
  refine ⟨fun h c _ => h c, fun h c hc => h c ?_ hc⟩
  rw [← hc]
  exact Constant.parse?_text c

instance (s : String) : Decidable (Nameable s) :=
  decidable_of_iff (Plain s.toList ∧ ∀ c ∈ Constant.parse? s, c.text ≠ s)
    ⟨fun h => ⟨h.1, Constant.forall_text_ne_iff.2 h.2⟩,
      fun h => ⟨h.plain, Constant.forall_text_ne_iff.1 h.not_text⟩⟩

/-- The variable, if the leaf is one, can be told from the constants. -/
def Leaf.Nameable (l : Leaf) : Prop := ∀ s, l = .var s → EqSat.Nameable s

namespace Leaf

variable {l m : Leaf}

theorem plain_label (hl : l.Nameable) : Plain l.label.toList := by
  cases l with
  | const c => exact plain_of_isWord c.isWord_text
  | var s => exact (hl s rfl).plain

/-- The text tells the leaf. -/
theorem label_cancel (hl : l.Nameable) (hm : m.Nameable) (h : l.label = m.label) : l = m := by
  cases l with
  | const c =>
    cases m with
    | const d =>
      have hread := Constant.parse?_text c
      rw [show c.text = d.text from h, Constant.parse?_text] at hread
      exact congrArg const (Option.some.inj hread).symm
    | var s => exact absurd h ((hm s rfl).not_text c)
  | var s =>
    cases m with
    | const d => exact absurd h.symm ((hl s rfl).not_text d)
    | var s' => exact congrArg var h

end Leaf

/-! ## Operators -/

namespace UnaryOp

variable {op op' : UnaryOp}

/-- What is written in front of the operand. -/
def before (op : UnaryOp) : List Char := if op.followsOperand then [] else op.symbol.toList

/-- What is written behind the operand. -/
def behind (op : UnaryOp) : List Char := if op.followsOperand then op.symbol.toList else []

theorem plain_before (op : UnaryOp) : Plain op.before := by cases op <;> decide

theorem plain_behind (op : UnaryOp) : Plain op.behind := by cases op <;> decide

theorem eq_of_before (h : op.before = op'.before) : op = op' := by
  cases op <;> cases op' <;> first | rfl | exact absurd h (by decide)

end UnaryOp

namespace BinaryOp

variable {op op' : BinaryOp}

/-- What is written between the operands. -/
def between (op : BinaryOp) : List Char := ' ' :: (op.symbol.toList ++ [' '])

theorem plain_between (op : BinaryOp) : Plain op.between := by cases op <;> decide

theorem eq_of_between (h : op.between = op'.between) : op = op' := by
  have hsymbol : op.symbol.toList = op'.symbol.toList := by simpa [between] using h
  have hread := ofSymbol?_symbol op
  rw [String.toList_inj.1 hsymbol, ofSymbol?_symbol] at hread
  exact (Option.some.inj hread).symm

end BinaryOp

/-! ## Expressions -/

namespace Expr

theorem infixOnto_unary (op : UnaryOp) (e : Expr μ) (rest : List Char) :
    (unary op e).infixOnto rest =
      op.before ++ '(' :: e.infixOnto (')' :: (op.behind ++ rest)) := by
  rw [infixOnto, UnaryOp.before, UnaryOp.behind]
  split <;> simp

theorem infixOnto_binary (op : BinaryOp) (e f : Expr μ) (rest : List Char) :
    (binary op e f).infixOnto rest =
      [] ++ '(' :: e.infixOnto (')' :: (op.between ++ '(' :: f.infixOnto (')' :: rest))) := by
  simp [infixOnto, BinaryOp.between]

theorem infixOnto_append (e : Expr μ) (cs rest : List Char) :
    e.infixOnto (cs ++ rest) = e.infixOnto cs ++ rest := by
  induction e generalizing cs with
  | leaf l => simp [infixOnto]
  | unary op e ih => simp [infixOnto_unary, ← ih]
  | binary op e f ihe ihf => simp [infixOnto_binary, ← ihe, ← ihf]

/-- The text is that of the term under the information. -/
theorem infixOnto_toExpr (e : Expr μ) (rest : List Char) :
    e.toTree.toExpr.infixOnto rest = e.infixOnto rest := by
  induction e generalizing rest with
  | leaf l => rfl
  | unary op e ih => simp only [toTree, Tree.toExpr, infixOnto_unary, ih]
  | binary op e f ihe ihf => simp only [toTree, Tree.toExpr, infixOnto_binary, ihe, ihf]

/-- All variables can be told from the constants. -/
def Nameable (e : Expr μ) : Prop := ∀ s ∈ e.vars, EqSat.Nameable s

instance (e : Expr μ) : Decidable e.Nameable :=
  inferInstanceAs (Decidable (∀ s ∈ e.vars, EqSat.Nameable s))

theorem nameable_leaf {l : Tagged Leaf μ} (h : (leaf l).Nameable) : l.item.Nameable := by
  obtain ⟨l, info⟩ := l
  rintro s rfl
  exact h s (by simp [vars])

theorem nameable_unary {op : UnaryOp} {e : Expr μ} (h : (unary op e).Nameable) : e.Nameable := h

theorem nameable_binary {op : BinaryOp} {e f : Expr μ} (h : (binary op e f).Nameable) :
    e.Nameable ∧ f.Nameable :=
  ⟨fun s hs => h s (List.mem_append_left _ hs), fun s hs => h s (List.mem_append_right _ hs)⟩

/-- **In front of a closing parenthesis**, the text tells where the expression ends, and which
one it is. -/
theorem infixOnto_cancel {a b : Expr μ} {r s : List Char} (ha : a.Nameable) (hb : b.Nameable)
    (h : a.infixOnto (')' :: r) = b.infixOnto (')' :: s)) : a.toTree = b.toTree ∧ r = s := by
  induction a generalizing b r s with
  | leaf l =>
    have hl := Leaf.plain_label (nameable_leaf ha)
    cases b with
    | leaf m =>
      obtain ⟨hlabel, -, hrs⟩ :=
        hl.cancel (Leaf.plain_label (nameable_leaf hb)) (.inr rfl) (.inr rfl) h
      exact ⟨congrArg Tree.leaf (Leaf.label_cancel (nameable_leaf ha) (nameable_leaf hb)
        (String.toList_inj.1 hlabel)), hrs⟩
    | unary op e =>
      rw [infixOnto_unary] at h
      exact absurd (hl.cancel op.plain_before (.inr rfl) (.inl rfl) h).2.1 (by decide)
    | binary op e f =>
      rw [infixOnto_binary] at h
      exact absurd (hl.cancel plain_nil (.inr rfl) (.inl rfl) h).2.1 (by decide)
  | unary op e ih =>
    rw [infixOnto_unary] at h
    cases b with
    | leaf m =>
      exact absurd (op.plain_before.cancel (Leaf.plain_label (nameable_leaf hb)) (.inl rfl)
        (.inr rfl) h).2.1 (by decide)
    | unary op' e' =>
      rw [infixOnto_unary] at h
      obtain ⟨hbefore, -, h⟩ :=
        op.plain_before.cancel op'.plain_before (.inl rfl) (.inl rfl) h
      obtain ⟨he, h⟩ := ih (nameable_unary ha) (nameable_unary hb) h
      obtain ⟨-, -, hrs⟩ := op.plain_behind.cancel op'.plain_behind (.inr rfl) (.inr rfl) h
      exact ⟨by rw [toTree, toTree, he, UnaryOp.eq_of_before hbefore], hrs⟩
    | binary op' e' f' =>
      -- behind the first operand, the one closes and the other opens
      rw [infixOnto_binary] at h
      obtain ⟨-, -, h⟩ := op.plain_before.cancel plain_nil (.inl rfl) (.inl rfl) h
      obtain ⟨-, h⟩ := ih (nameable_unary ha) (nameable_binary hb).1 h
      exact absurd (op.plain_behind.cancel op'.plain_between (.inr rfl) (.inl rfl) h).2.1
        (by decide)
  | binary op e f ihe ihf =>
    rw [infixOnto_binary] at h
    cases b with
    | leaf m =>
      exact absurd (plain_nil.cancel (Leaf.plain_label (nameable_leaf hb)) (.inl rfl)
        (.inr rfl) h).2.1 (by decide)
    | unary op' e' =>
      rw [infixOnto_unary] at h
      obtain ⟨-, -, h⟩ := plain_nil.cancel op'.plain_before (.inl rfl) (.inl rfl) h
      obtain ⟨-, h⟩ := ihe (nameable_binary ha).1 (nameable_unary hb) h
      exact absurd (op.plain_between.cancel op'.plain_behind (.inl rfl) (.inr rfl) h).2.1
        (by decide)
    | binary op' e' f' =>
      rw [infixOnto_binary] at h
      obtain ⟨-, -, h⟩ := plain_nil.cancel plain_nil (.inl rfl) (.inl rfl) h
      obtain ⟨he, h⟩ := ihe (nameable_binary ha).1 (nameable_binary hb).1 h
      obtain ⟨hbetween, -, h⟩ :=
        op.plain_between.cancel op'.plain_between (.inl rfl) (.inl rfl) h
      obtain ⟨hf, h⟩ := ihf (nameable_binary ha).2 (nameable_binary hb).2 h
      exact ⟨by rw [toTree, toTree, he, hf, BinaryOp.eq_of_between hbetween],
        (List.cons.inj h).2⟩

/-- **Infix texts** are unambiguous: two expressions print alike exactly if they are equal, their
information aside. -/
theorem infixText_eq_iff (a b : Expr μ) (ha : a.Nameable) (hb : b.Nameable) :
    a.infixText = b.infixText ↔ a.agrees b = true := by
  rw [agrees_iff, infixText, infixText, String.ofList_inj]
  constructor
  · intro h
    have hclosed : a.infixOnto ([] ++ [')']) = b.infixOnto ([] ++ [')']) := by
      rw [infixOnto_append, infixOnto_append, h]
    exact (infixOnto_cancel ha hb hclosed).1
  · intro h
    rw [← infixOnto_toExpr a, ← infixOnto_toExpr b, h]

/-- Both minus signs, the sign of a constant and an operator behind its operand.  The names of the
variables are an operator and nothing at all. -/
theorem infixText_eq_iff_signs :
    let a : Expr Nat := .binary .sub (.unary .minus (.leaf ⟨.const (.int (-5)), 0⟩))
      (.unary .deref (.binary .and (.leaf ⟨.var "-", 1⟩) (.leaf ⟨.var "", 2⟩)))
    let b : Expr Nat := .binary .sub (.unary .minus (.unary .minus (.leaf ⟨.const (.int 5), 0⟩)))
      (.unary .deref (.binary .and (.leaf ⟨.var "-", 1⟩) (.leaf ⟨.var "", 2⟩)))
    (a.Nameable ∧ b.Nameable) ∧ (a.infixText = b.infixText ↔ a.agrees b = true) ∧
      a.infixText = "(-(-5)) - (((-) and ())^)" ∧ b.infixText = "(-(-(5))) - (((-) and ())^)" := by
  intro a b
  have ha : a.Nameable := by decide +kernel
  have hb : b.Nameable := by decide +kernel
  exact ⟨⟨ha, hb⟩, infixText_eq_iff a b ha hb, by decide +kernel, by decide +kernel⟩

end Expr
end EqSat
