import EqSat.Folding
import EqSat.Proofs.Terms

/-!
# Kinds and values of terms

Integers and Booleans are apart.  An equality takes operands of one kind, every other operator
operands of its own kind; a dereference has no kind.  Values follow the folding of constants,
with a free choice of what the divisions give for a zero divisor.

    (u.value? z ρ).map kind = u.kind? (kind ∘ ρ)        (Tree.kind_value)
-/

namespace EqSat

/-- What a term is of. -/
inductive Kind where
  | int
  | bool
deriving DecidableEq, Repr

def Constant.kind : Constant → Kind
  | .int _ => .int
  | .bool _ => .bool

/-! ## Kinds -/

namespace UnaryOp

/-- The kind of the operator over an operand of a kind that it takes. -/
def kind? : UnaryOp → Kind → Option Kind
  | minus, .int => some .int
  | plus, .int => some .int
  | not, .bool => some .bool
  | _, _ => none

end UnaryOp

namespace BinaryOp

/-- Both operands may be of the kind. -/
def takes : BinaryOp → Kind → Bool
  | eq, _ => true
  | ne, _ => true
  | and, k => k == .bool
  | or, k => k == .bool
  | implies, k => k == .bool
  | iff, k => k == .bool
  | _, k => k == .int

def gives : BinaryOp → Kind
  | add => .int
  | sub => .int
  | mul => .int
  | div => .int
  | intDiv => .int
  | mod => .int
  | _ => .bool

def kind? (op : BinaryOp) (a b : Kind) : Option Kind :=
  if a = b ∧ op.takes a then some op.gives else none

end BinaryOp

namespace Tree

/-- The kind of a term under kinds of its variables, if it is well-typed. -/
def kind? (Γ : String → Kind) : Tree → Option Kind
  | leaf (.const c) => some c.kind
  | leaf (.var x) => some (Γ x)
  | unary op t => (kind? Γ t).bind op.kind?
  | binary op t u => (kind? Γ t).bind fun a => (kind? Γ u).bind fun b => op.kind? a b

variable {Γ : String → Kind}

/-- The parts of a well-typed term are well-typed. -/
theorem kind_of_mem_parts {u v : Tree} {k : Kind} (hu : u.kind? Γ = some k) (hv : v ∈ u.parts) :
    ∃ k', v.kind? Γ = some k' := by
  induction u generalizing k with
  | leaf l =>
    obtain rfl := List.mem_singleton.1 hv
    exact ⟨k, hu⟩
  | unary op u ih =>
    rcases List.mem_cons.1 hv with rfl | hv
    · exact ⟨k, hu⟩
    · obtain ⟨k', hk', -⟩ := Option.bind_eq_some_iff.1 hu
      exact ih hk' hv
  | binary op u w ihu ihw =>
    rcases List.mem_cons.1 hv with rfl | hv
    · exact ⟨k, hu⟩
    · obtain ⟨a, ha, hw⟩ := Option.bind_eq_some_iff.1 hu
      obtain ⟨b, hb, -⟩ := Option.bind_eq_some_iff.1 hw
      exact (List.mem_append.1 hv).elim (ihu ha) (ihw hb)

end Tree

namespace Term

/-- Every node of the term is well-typed, also one that the root does not reach. -/
def Typed (Γ : String → Kind) (t : Term) : Prop :=
  ∀ i u, t.treeAt? i = some u → ∃ k, u.kind? Γ = some k

/-- A well-typed tree is a well-typed term. -/
theorem typed_ofTree {Γ : String → Kind} {u : Tree} {k : Kind} (h : u.kind? Γ = some k) :
    (ofTree u).Typed Γ := fun _ _ hv => Tree.kind_of_mem_parts h (mem_parts_of_ofTree hv)

end Term

/-! ## Values -/

/-- What the three divisions give for a zero divisor, by the dividend. -/
structure ZeroDivision where
  div : Int → Int
  intDiv : Int → Int
  mod : Int → Int

/-- The value of a division of an integer by zero. -/
def ZeroDivision.at? (z : ZeroDivision) : BinaryOp → Constant → Option Constant
  | .div, .int a => some (.int (z.div a))
  | .intDiv, .int a => some (.int (z.intDiv a))
  | .mod, .int a => some (.int (z.mod a))
  | _, _ => none

/-- The value of the operator on two constants of one kind: what they fold to, or the choice
for a zero divisor. -/
def BinaryOp.value? (z : ZeroDivision) (op : BinaryOp) (a b : Constant) : Option Constant :=
  if a.kind = b.kind then (op.fold? a b).or (z.at? op a) else none

namespace Tree

/-- The value of a term under values of its variables, if it is well-typed. -/
def value? (z : ZeroDivision) (ρ : String → Constant) : Tree → Option Constant
  | leaf (.const c) => some c
  | leaf (.var x) => some (ρ x)
  | unary op t => (value? z ρ t).bind op.fold?
  | binary op t u => (value? z ρ t).bind fun a => (value? z ρ u).bind fun b => op.value? z a b

end Tree

/-- The value of a node over values of its children, each of them perhaps without one. -/
def Node.value? (z : ZeroDivision) (ρ : String → Constant) :
    Node (Option Constant) → Option Constant
  | leaf (.const c) => some c
  | leaf (.var x) => some (ρ x)
  | unary op a => a.bind op.fold?
  | binary op a b => a.bind fun x => b.bind fun y => op.value? z x y

variable {z : ZeroDivision} {ρ : String → Constant}

theorem Tree.value_ofNode (n : Node Tree) :
    (Tree.ofNode n).value? z ρ = (n.map (Tree.value? z ρ)).value? z ρ := by
  cases n with
  | leaf l => cases l <;> rfl
  | unary op t => rfl
  | binary op t u => rfl

theorem UnaryOp.kind_fold (op : UnaryOp) (a : Constant) :
    (op.fold? a).map Constant.kind = op.kind? a.kind := by
  cases op <;> cases a <;> rfl

theorem BinaryOp.kind_value (z : ZeroDivision) (op : BinaryOp) (a b : Constant) :
    (op.value? z a b).map Constant.kind = op.kind? a.kind b.kind := by
  cases a <;> cases b <;> cases op <;>
    simp [value?, kind?, fold?, foldInt?, foldBool?, takes, gives, Constant.kind,
      ZeroDivision.at?, truncDiv, truncMod]

/-- **A term has a value** exactly if it is well-typed, and one of its kind. -/
theorem Tree.kind_value (u : Tree) :
    (u.value? z ρ).map Constant.kind = u.kind? fun x => (ρ x).kind := by
  induction u with
  | leaf l => cases l <;> rfl
  | unary op u ih =>
    rw [value?, kind?, ← ih]
    cases u.value? z ρ with
    | none => rfl
    | some a => exact op.kind_fold a
  | binary op u v ihu ihv =>
    rw [value?, kind?, ← ihu, ← ihv]
    cases u.value? z ρ with
    | none => rfl
    | some a =>
      cases v.value? z ρ with
      | none => rfl
      | some b => exact op.kind_value z a b

/-- The nodes of a well-typed term have values, over the values of their children. -/
theorem Term.Typed.exists_values {t : Term} (h : t.Typed fun x => (ρ x).kind) (z : ZeroDivision) :
    ∃ value : Nat → Constant, (∀ i, i < t.size → (t.treeAt i).value? z ρ = some (value i)) ∧
      ∀ (i : Nat) (n : Node Nat), t.nodes[i]? = some n →
        ((n.map value).map some).value? z ρ = some (value i) := by
  refine t.exists_values_of_tree Tree.value_ofNode fun i hi => ?_
  obtain ⟨k, hk⟩ := h i _ (getElem_values t.steps_treeAt hi)
  rw [← Tree.kind_value (z := z)] at hk
  obtain ⟨c, hc, -⟩ := Option.map_eq_some_iff.1 hk
  exact ⟨c, hc⟩

/-- Values of the nodes of a term are the values of what they unfold to. -/
theorem Term.value_treeAt {t : Term} {value : Nat → Constant}
    (h : ∀ (i : Nat) (n : Node Nat), t.nodes[i]? = some n →
      ((n.map value).map some).value? z ρ = some (value i)) {i : Nat} (hi : i < t.size) :
    (t.treeAt i).value? z ρ = some (value i) := value_of_tree Tree.value_ofNode h hi

end EqSat
