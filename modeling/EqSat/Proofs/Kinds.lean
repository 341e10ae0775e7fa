import EqSat.Proofs.Evaluation
import EqSat.Proofs.Looping

/-!
# Kinds are kept

Every built-in rule, also one that is no equation of values, gives a term of the kind of the term
it matches: as equations of kinds all of them hold, where plus takes Booleans, too.  Constants fold
to constants of the kind of the node.  So every class is of one kind, whatever the limits, and what
is extracted, in which no plus stands before a Boolean, is well-typed.

    holds_kinds       the built-in rules as equations of kinds
    simplify_kind     simplification keeps the kind of a well-typed term
-/

namespace EqSat

open EGraph

variable {Γ : String → Kind}

/-! ## Kinds of nodes -/

/-- The kind of a node over kinds of its children, each of them perhaps ill-typed. -/
def Node.kind? (Γ : String → Kind) : Node (Option Kind) → Option Kind
  | leaf (.const c) => some c.kind
  | leaf (.var x) => some (Γ x)
  | unary op a => a.bind op.kind?
  | binary op a b => a.bind fun x => b.bind fun y => op.kind? x y

theorem Tree.kind_ofNode (n : Node Tree) :
    (Tree.ofNode n).kind? Γ = (n.map (Tree.kind? Γ)).kind? Γ := by
  cases n with
  | leaf l => cases l <;> rfl
  | unary op t => rfl
  | binary op t u => rfl

/-- The kind of a node over kinds of its children; plus takes Booleans, too. -/
def Node.looseKind? (Γ : String → Kind) : Node Kind → Option Kind
  | unary .plus a => some a
  | n => (n.map some).kind? Γ

theorem Node.looseKind_eq_kind {n : Node Kind} (h : n ≠ .unary .plus .bool) :
    n.looseKind? Γ = (n.map some).kind? Γ := by
  unfold looseKind?
  split
  · next a =>
    cases a with
    | bool => exact absurd rfl h
    | int => rfl
  · rfl

theorem Node.looseKind_of_kind {n : Node Kind} {k : Kind} (h : (n.map some).kind? Γ = some k) :
    n.looseKind? Γ = some k := by
  rw [looseKind_eq_kind, h]
  rintro rfl
  cases h

theorem UnaryOp.kind_of_fold {op : UnaryOp} {a c : Constant} {k : Kind} (hc : op.fold? a = some c)
    (hk : (Node.unary op a.kind).looseKind? Γ = some k) : k = c.kind := by
  cases op <;> cases a <;> cases hc <;> cases hk <;> rfl

/-- Two constants of one kind fold to one of the operator's kind. -/
theorem BinaryOp.kind_of_fold {op : BinaryOp} {a b c : Constant} {k : Kind}
    (hc : op.fold? a b = some c) (hk : op.kind? a.kind b.kind = some k) : k = c.kind := by
  have hvalue := op.kind_value ⟨id, id, id⟩ a b
  rw [hk] at hvalue
  obtain ⟨d, hd, rfl⟩ := Option.map_eq_some_iff.1 hvalue
  have hkind : a.kind = b.kind := by
    unfold kind? at hk
    split at hk
    · next h => exact h.1
    · cases hk
  rw [value?, if_pos hkind, hc, Option.some_or] at hd
  rw [Option.some.inj hd]

/-- Kinds as a meaning of nodes. -/
def kinds (Γ : String → Kind) : Meaning Kind where
  analysis := .constantFolding
  const := Constant.kind
  Holds n k := n.looseKind? Γ = some k
  holds_const := fun _ => rfl
  unique := fun hd he => Option.some.inj (hd.symm.trans he)
  fold := by
    rintro - n c k hc hk
    cases n with
    | leaf l =>
      cases l with
      | const d =>
        cases hc
        exact (Option.some.inj hk).symm
      | var x => cases hc
    | unary op a => exact UnaryOp.kind_of_fold hc hk
    | binary op a b => exact BinaryOp.kind_of_fold hc hk

/-! ## The rules -/

/-- Three kinds for the variables `x`, `y` and `z`. -/
def Kind.triple (a b c : Kind) (v : String) : Kind :=
  if v = "x" then a else if v = "y" then b else c

def Kind.all : List Kind := [.int, .bool]

theorem Kind.mem_all (k : Kind) : k ∈ all := by cases k <;> decide

/-- The sides of a rule have one kind, whatever kinds its variables have. -/
theorem kind_sides : ∀ r ∈ Rule.defaults, ∀ a ∈ Kind.all, ∀ b ∈ Kind.all, ∀ c ∈ Kind.all,
    r.lhs.through (Node.looseKind? fun _ => .int) (Kind.triple a b c) = none ∨
      r.rhs.through (Node.looseKind? fun _ => .int) (Kind.triple a b c) =
        r.lhs.through (Node.looseKind? fun _ => .int) (Kind.triple a b c) := by
  decide +kernel

def Leaf.isConst : Leaf → Bool
  | .const _ => true
  | .var _ => false

/-- The rules have no leaves but constants. -/
theorem isConst_leaf_default : ∀ r ∈ Rule.defaults, ∀ n ∈ r.lhs.heads ++ r.rhs.heads,
    n.leaf?.all Leaf.isConst = true := by decide

/-- **The built-in rules are equations** of kinds, the transitive ones, too. -/
theorem holds_kinds {r : Rule} (hr : r ∈ Rule.defaults) : r.Holds (kinds Γ) := by
  intro σ k hk
  have hvars : ∀ r ∈ Rule.defaults, ∀ v ∈ r.lhs.vars, v = "x" ∨ v = "y" ∨ v = "z" := by decide
  have hσ : ∀ v ∈ r.lhs.vars, σ v = Kind.triple (σ "x") (σ "y") (σ "z") v := by
    intro v hv
    obtain rfl | rfl | rfl := hvars r hr v hv <;> rfl
  -- without leaves of variables, the kinds of variables do not matter
  have hfree : ∀ n : Node Kind, n.outline ∈ r.lhs.heads ++ r.rhs.heads →
      n.looseKind? Γ = n.looseKind? fun _ => .int := by
    intro n hn
    have hleaf := isConst_leaf_default r hr _ hn
    cases n with
    | leaf l =>
      cases l with
      | const c => rfl
      | var x => cases hleaf
    | unary op a => cases op <;> rfl
    | binary op a b => rfl
  have hthrough : ∀ n (k : Kind), (kinds Γ).Holds n k ↔ n.looseKind? Γ = some k :=
    fun _ _ => Iff.rfl
  rw [Pattern.means_congr hσ, Pattern.means_iff_through hthrough, Pattern.through_congr fun n hn =>
    hfree n (List.mem_append.2 (.inl hn))] at hk
  rw [Pattern.means_congr fun v hv => hσ v (r.rhs_bound v hv), Pattern.means_iff_through hthrough,
    Pattern.through_congr fun n hn => hfree n (List.mem_append.2 (.inr hn))]
  rcases kind_sides r hr _ (σ "x").mem_all _ (σ "y").mem_all _ (σ "z").mem_all with hnone | heq
  · rw [hnone] at hk
    cases hk
  · rw [heq, hk]

/-! ## Simplification -/

/-- The nodes of a well-typed term have kinds. -/
theorem Term.Typed.exists_kinds {t : Term} (h : t.Typed Γ) :
    ∃ kind : Nat → Kind, (∀ i, i < t.size → (t.treeAt i).kind? Γ = some (kind i)) ∧
      ∀ (i : Nat) (n : Node Nat), t.nodes[i]? = some n →
        ((n.map kind).map some).kind? Γ = some (kind i) :=
  haveI : Inhabited Kind := ⟨.int⟩
  t.exists_values_of_tree Tree.kind_ofNode fun i hi => h i _ (getElem_values t.steps_treeAt hi)

/-- The nodes of a term with kinds put no plus before a Boolean. -/
theorem plusFree_of_kind {t : Term} {kind : Nat → Kind}
    (h : ∀ (i : Nat) (n : Node Nat), t.nodes[i]? = some n →
      ((n.map kind).map some).kind? Γ = some (kind i)) : PlusFree (· = .bool) t kind := by
  intro i c hn hbool
  have hkind : UnaryOp.kind? .plus (kind c) = some (kind i) := h i _ hn
  rw [hbool] at hkind
  cases hkind

/-- Loose kinds are kinds where no plus stands before a Boolean. -/
theorem kind_of_plusFree {t : Term} {kind : Nat → Kind} (h : t.Valued (kinds Γ) kind)
    (hfree : PlusFree (· = .bool) t kind) (i : Nat) (n : Node Nat) (hn : t.nodes[i]? = some n) :
    ((n.map kind).map some).kind? Γ = some (kind i) := by
  rw [← Node.looseKind_eq_kind]
  · exact h i n hn
  · intro hb
    cases n with
    | leaf l => cases hb
    | binary op c d => cases hb
    | unary op c =>
      obtain ⟨rfl, hbool⟩ := Node.unary.inj hb
      exact hfree i c hn hbool

/-- **Simplification keeps kinds.**  Whatever the limits, a well-typed term that the built-in rules
lead to no conflict is simplified to a well-typed term of its kind, under the same kinds of the
variables and with all of its nodes well-typed. -/
theorem simplify_kind {t : Term} {u : Tree} (ht : t.tree? = some u) (hΓ : t.Typed Γ)
    (limits : Limits) (hno : ∀ e, t.simplify Rule.defaults limits ≠ .error (.conflict e)) :
    ∃ best v k, t.simplify Rule.defaults limits = .ok best ∧ best.tree? = some v ∧
      u.kind? Γ = some k ∧ v.kind? Γ = some k ∧ best.Typed Γ := by
  obtain ⟨hempty, rfl⟩ := Term.treeAt_of_tree? ht
  obtain ⟨kind, hkind, hstrict⟩ := hΓ.exists_kinds
  have hvalued : t.Valued (kinds Γ) kind := fun i n hn => Node.looseKind_of_kind (hstrict i n hn)
  rcases simplify_looping (B := (· = .bool)) (fun _ => rfl) rfl (fun _ hr => hr)
    (fun _ hr => holds_kinds hr) hvalued hempty (plusFree_of_kind hstrict) limits with
    ⟨e, he, -⟩ | ⟨best, kind', hok, hempty', hvalued', hfree, hroot⟩
  · exact absurd he (hno e)
  · have hall : ∀ i, i < best.size → (best.treeAt i).kind? Γ = some (kind' i) := fun i hi =>
      Term.value_of_tree Tree.kind_ofNode (kind_of_plusFree hvalued' hfree) hi
    refine ⟨best, _, kind (t.size - 1), hok, Term.tree?_eq best hempty',
      hkind _ (Term.size_sub_one_lt hempty), ?_, ?_⟩
    · rw [hall _ (Term.size_sub_one_lt hempty'), hroot]
    · intro i v hv
      obtain ⟨hi, rfl⟩ := Term.lt_of_treeAt? hv
      exact ⟨_, hall i hi⟩

/-- A Boolean gets its pluses and loses them again, also where the run is cut short. -/
theorem simplify_kind_equation :
    let u := Tree.binary .and (.binary .eq (.leaf (.var "x")) (.unary .plus (.leaf (.var "y"))))
      (.leaf (.const (.bool true)))
    (Term.ofTree u).tree? = some u ∧ (Term.ofTree u).Typed (fun _ => .int) ∧
      (∀ e, (Term.ofTree u).simplify Rule.defaults ⟨1, 100, by decide, by decide⟩ ≠
        .error (.conflict e)) ∧
      ∃ best v, (Term.ofTree u).simplify Rule.defaults ⟨1, 100, by decide, by decide⟩ = .ok best ∧
        best.tree? = some v ∧ v.kind? (fun _ => .int) = some .bool := by
  intro u
  have hkind : u.kind? (fun _ => .int) = some .bool := rfl
  have ht : (Term.ofTree u).tree? = some u := Term.tree?_ofTree u
  have htyped : (Term.ofTree u).Typed fun _ => .int := Term.typed_ofTree hkind
  have hrun : ((Term.ofTree u).simplify Rule.defaults
      ⟨1, 100, by decide, by decide⟩).toOption.isSome = true := by decide +kernel
  have hno : ∀ e, (Term.ofTree u).simplify Rule.defaults ⟨1, 100, by decide, by decide⟩ ≠
      .error (.conflict e) := by
    intro e he
    rw [he] at hrun
    cases hrun
  obtain ⟨best, v, k, hok, hv, hu, hk, -⟩ := simplify_kind ht htyped _ hno
  rw [hkind] at hu
  cases hu
  exact ⟨ht, htyped, hno, best, v, hok, hv, hk⟩

end EqSat
