import EqSat.Folding
import EqSat.Proofs.Terms
import Mathlib.Data.Rat.Floor

/-!
# A reference evaluator

The value of a closed term is computed from the bottom up.  The connectives take Booleans, the
two equalities take operands of one kind, and every other operator takes integers; a quotient
is the rational quotient rounded toward zero.  Variables, dereferences and divisions by zero
have no value.

Folding finds the value wherever there is one.

    fold_of_eval            an operator folds to its value
    truncate_div            rounding the quotient is integer division toward zero
    evaluable_ofTree        all nodes of a closed term have values
-/

namespace EqSat

/-- The integer next to a rational on the side of zero. -/
def truncate (q : ℚ) : Int := if 0 ≤ q then ⌊q⌋ else ⌈q⌉

namespace UnaryOp

def eval? : UnaryOp → Constant → Option Constant
  | not, .bool a => some (.bool !a)
  | minus, .int a => some (.int (-a))
  | plus, .int a => some (.int a)
  | _, _ => none

end UnaryOp

namespace BinaryOp

def evalBool? (a b : Bool) : BinaryOp → Option Bool
  | and => some (a && b)
  | or => some (a || b)
  | implies => some (!a || b)
  | iff => some (a == b)
  | eq => some (a == b)
  | ne => some (a != b)
  | _ => none

def evalInt? (a b : Int) : BinaryOp → Option Constant
  | add => some (.int (a + b))
  | sub => some (.int (a - b))
  | mul => some (.int (a * b))
  | div => if b = 0 then none else some (.int (truncate (a / b)))
  | intDiv => if b = 0 then none else some (.int (truncate (a / b)))
  | mod => if b = 0 then none else some (.int (a - b * truncate (a / b)))
  | eq => some (.bool (a = b))
  | ne => some (.bool (a ≠ b))
  | lt => some (.bool (a < b))
  | le => some (.bool (a ≤ b))
  | gt => some (.bool (a > b))
  | ge => some (.bool (a ≥ b))
  | _ => none

def eval? (op : BinaryOp) : Constant → Constant → Option Constant
  | .bool a, .bool b => (op.evalBool? a b).map .bool
  | .int a, .int b => op.evalInt? a b
  | _, _ => none

end BinaryOp

/-- The value of a closed term, if it has one. -/
def Tree.eval? : Tree → Option Constant
  | leaf (.const c) => some c
  | leaf (.var _) => none
  | unary op t => t.eval?.bind op.eval?
  | binary op t u => t.eval?.bind fun a => u.eval?.bind fun b => op.eval? a b

/-- The value of a node over values of its children, each of them perhaps without one. -/
def Node.eval? : Node (Option Constant) → Option Constant
  | leaf (.const c) => some c
  | leaf (.var _) => none
  | unary op a => a.bind op.eval?
  | binary op a b => a.bind fun x => b.bind fun y => op.eval? x y

theorem Tree.eval_ofNode (n : Node Tree) : (Tree.ofNode n).eval? = (n.map Tree.eval?).eval? := by
  cases n with
  | leaf l => cases l <;> rfl
  | unary op t => rfl
  | binary op t u => rfl

/-! ## Folding finds the value -/

theorem truncate_div (a b : Int) : truncate (a / b) = a.tdiv b := by
  have key : ∀ a : Int, 0 ≤ a → ∀ d : Nat, ⌊((a : ℚ) / (d : ℚ))⌋ = a.tdiv d := by
    intro a ha d
    rw [Rat.floor_intCast_div_natCast, Int.tdiv_eq_ediv_of_nonneg ha]
  -- the signs are drawn out of the quotient
  have hpos : ∀ a : Int, 0 ≤ a → ∀ d : Nat, truncate (a / (d : ℚ)) = a.tdiv d := by
    intro a ha d
    have hq : (0 : ℚ) ≤ (a : ℚ) / d := div_nonneg (by exact_mod_cast ha) (Nat.cast_nonneg d)
    rw [truncate, if_pos hq, key a ha d]
  have hneg : ∀ q : ℚ, truncate (-q) = -truncate q := by
    intro q
    unfold truncate
    rcases lt_trichotomy q 0 with hq | rfl | hq
    · rw [if_pos (by linarith), if_neg (by linarith), Int.floor_neg]
    · simp
    · rw [if_neg (by linarith), if_pos hq.le, Int.ceil_neg]
  have hnum : ∀ a : Int, ∀ d : Nat, truncate (a / (d : ℚ)) = a.tdiv d := by
    intro a d
    rcases Int.le_total 0 a with ha | ha
    · exact hpos a ha d
    · have h := hpos (-a) (by omega) d
      rw [Int.cast_neg, neg_div, hneg, Int.neg_tdiv] at h
      exact neg_inj.1 h
  obtain ⟨d, rfl | rfl⟩ := Int.eq_nat_or_neg b
  · simpa using hnum a d
  · have h := hnum a d
    rw [Int.cast_neg, Int.cast_natCast, div_neg, hneg, h, Int.tdiv_neg]

theorem UnaryOp.fold_of_eval {op : UnaryOp} {a c : Constant} (h : op.eval? a = some c) :
    op.fold? a = some c := by
  cases op <;> cases a <;> exact h

theorem BinaryOp.fold_of_evalBool {op : BinaryOp} {a b : Bool} {c : Bool}
    (h : op.evalBool? a b = some c) : op.fold? (.bool a) (.bool b) = some (.bool c) := by
  cases op <;> simp only [evalBool?, Option.some.injEq, reduceCtorEq] at h <;> subst h <;>
    first | rfl | (cases a <;> cases b <;> rfl)

theorem BinaryOp.fold_of_evalInt {op : BinaryOp} {a b : Int} {c : Constant}
    (h : op.evalInt? a b = some c) : op.fold? (.int a) (.int b) = some c := by
  have hdiv : ∀ q : Int, (if b = 0 then none else some (Constant.int q)) = some c →
      b ≠ 0 ∧ c = .int q := by
    intro q hq
    split at hq
    · cases hq
    · next hb => exact ⟨hb, (Option.some.inj hq).symm⟩
  cases op <;> simp only [evalInt?, reduceCtorEq] at h
  case div | intDiv =>
    obtain ⟨hb, rfl⟩ := hdiv _ h
    rw [truncate_div]
    simp [fold?, foldInt?, truncDiv, hb]
  case mod =>
    obtain ⟨hb, rfl⟩ := hdiv _ h
    rw [truncate_div, ← Int.tmod_def]
    simp [fold?, foldInt?, truncMod, hb]
  case eq | ne =>
    rw [← h]
    by_cases hab : a = b <;> simp [fold?, hab]
  all_goals exact h

theorem BinaryOp.fold_of_eval {op : BinaryOp} {a b c : Constant} (h : op.eval? a b = some c) :
    op.fold? a b = some c := by
  cases a with
  | bool a =>
    cases b with
    | bool b =>
      obtain ⟨d, hd, rfl⟩ := Option.map_eq_some_iff.1 h
      exact fold_of_evalBool hd
    | int b => cases h
  | int a =>
    cases b with
    | bool b => cases h
    | int b => exact fold_of_evalInt h

/-- **A node over values** folds to its value. -/
theorem Node.fold_of_eval {n : Node Constant} {c : Constant} (h : (n.map some).eval? = some c) :
    (n.map some).fold? = some c := by
  cases n with
  | leaf l =>
    cases l with
    | const k => exact h
    | var x => cases h
  | unary op a => exact UnaryOp.fold_of_eval h
  | binary op a b => exact BinaryOp.fold_of_eval h

/-! ## Closed terms -/

/-- The parts of a term that has a value have values. -/
theorem Tree.eval_of_mem_parts {u v : Tree} {c : Constant} (hu : u.eval? = some c)
    (hv : v ∈ u.parts) : ∃ d, v.eval? = some d := by
  induction u generalizing c with
  | leaf l =>
    obtain rfl := List.mem_singleton.1 hv
    exact ⟨c, hu⟩
  | unary op u ih =>
    rcases List.mem_cons.1 hv with rfl | hv
    · exact ⟨c, hu⟩
    · obtain ⟨a, ha, -⟩ := Option.bind_eq_some_iff.1 hu
      exact ih ha hv
  | binary op u w ihu ihw =>
    rcases List.mem_cons.1 hv with rfl | hv
    · exact ⟨c, hu⟩
    · obtain ⟨a, ha, hw⟩ := Option.bind_eq_some_iff.1 hu
      obtain ⟨b, hb, -⟩ := Option.bind_eq_some_iff.1 hw
      exact (List.mem_append.1 hv).elim (ihu ha) (ihw hb)

/-- Every node of the term has a value, also one that the root does not reach. -/
def Term.Evaluable (t : Term) : Prop :=
  ∀ i u, t.treeAt? i = some u → ∃ c, u.eval? = some c

/-- A tree that has a value is a term whose nodes have values. -/
theorem Term.evaluable_ofTree {u : Tree} {c : Constant} (h : u.eval? = some c) :
    (ofTree u).Evaluable := fun _ _ hv => Tree.eval_of_mem_parts h (mem_parts_of_ofTree hv)

/-- The nodes fold to their values, over the values of their children. -/
theorem Term.Evaluable.exists_values {t : Term} (h : t.Evaluable) :
    ∃ value : Nat → Constant, (∀ i, i < t.size → (t.treeAt i).eval? = some (value i)) ∧
      ∀ (i : Nat) (n : Node Nat), t.nodes[i]? = some n →
        ((n.map value).map some).fold? = some (value i) := by
  obtain ⟨value, hvalue, hnode⟩ := t.exists_values_of_tree Tree.eval_ofNode fun i hi =>
    h i _ (getElem_values t.steps_treeAt hi)
  exact ⟨value, hvalue, fun i n hn => Node.fold_of_eval (hnode i n hn)⟩

end EqSat
