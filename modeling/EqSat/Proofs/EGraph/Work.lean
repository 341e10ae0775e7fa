import EqSat.Proofs.EGraph.Join
import Mathlib.Algebra.GroupWithZero.Nat

/-!
# How much work is left

Sums over the classes of a graph change by what happens to single classes.  With them the
bound on the usages that a rebuild looks at is seen to pay for every join: a class that is
lost, or becomes known, gives back more than the usages that it puts on the worklists.

    g.Apart x y → mergeConstants x.data y.data = .ok k →
      (g.absorb x.id y k).work < g.work                                          (work_absorb_lt)
-/

namespace EqSat.EGraph

/-- The sum of `f` over the classes. -/
def total (g : EGraph) (f : EClass → Nat) : Nat := (g.classes.toList.map (·.elim 0 f)).sum

/-- What a class still has to give: it can be lost, and it can become known. -/
def credit (c : EClass) : Nat := if c.data.isNone then 3 else 2

/-- The number of usages, over all classes. -/
def usages (g : EGraph) : Nat := g.total (·.parents.size)

variable {g : EGraph} {f : EClass → Nat} {x y : EClass} {k : Option Constant}

theorem foldl_eq_total (f : EClass → Nat) :
    g.classes.foldl (fun n c => match c with
      | some c => n + f c
      | none => n) 0 = g.total f := by
  have key : ∀ (cs : List (Option EClass)) (n : Nat),
      cs.foldl (fun n c => match c with
        | some c => n + f c
        | none => n) n = n + (cs.map (·.elim 0 f)).sum := by
    intro cs
    induction cs with
    | nil => intro n; simp
    | cons c cs ih =>
      intro n
      rw [List.foldl_cons, ih, List.map_cons, List.sum_cons]
      cases c with
      | none => simp
      | some c => simp only [Option.elim_some]; omega
  rw [← Array.foldl_toList, key, total, Nat.zero_add]

theorem work_eq (g : EGraph) :
    g.work = g.total credit * (2 * g.usages + 1) + g.pending.length + g.foldPending.length := by
  unfold work usages
  rw [← foldl_eq_total, ← foldl_eq_total]
  rfl

/-! ## Sums -/

theorem sum_map_set {α : Type} (F : α → Nat) (l : List α) (i : Nat) (a b : α)
    (h : l[i]? = some b) : ((l.set i a).map F).sum + F b = (l.map F).sum + F a := by
  induction l generalizing i with
  | nil => simp at h
  | cons c l ih =>
    cases i with
    | zero =>
      obtain rfl : c = b := by simpa using h
      simp only [List.set_cons_zero, List.map_cons, List.sum_cons]
      omega
    | succ i =>
      have hrec := ih i (by simpa using h)
      simp only [List.set_cons_succ, List.map_cons, List.sum_cons]
      omega

theorem getElem_of_stored {id : ClassId} {c : EClass} (h : g.stored? id = some c) :
    g.classes.toList[id]? = some (some c) := by
  rw [Array.getElem?_toList]
  exact Option.join_eq_some_iff.1 h

theorem total_modifyClass {id : ClassId} {c : EClass} (h : g.stored? id = some c)
    (m : EClass → EClass) : (g.modifyClass id m).total f + f c = g.total f + f (m c) := by
  have hset : (g.modifyClass id m).classes.toList = g.classes.toList.set id (some (m c)) := by
    show (g.classes.modify id (Option.map m)).toList = _
    rw [Array.toList_modify, List.modify_eq_set_getElem?, getElem_of_stored h]
    rfl
  rw [total, hset]
  exact sum_map_set (·.elim 0 f) _ _ _ _ (getElem_of_stored h)

theorem total_enter_leaf (l : Leaf) :
    (g.enter (.leaf l)).total f =
      g.total f + f ⟨g.size, #[.leaf l], #[], g.foldNode (.leaf l)⟩ := by
  have hpush : (g.enter (.leaf l)).classes.toList = g.classes.toList ++
      [some ⟨g.size, #[.leaf l], #[], g.foldNode (.leaf l)⟩] := by
    show (g.classes.push _).toList = _
    rw [Array.toList_push]
    rfl
  rw [total, hpush, List.map_append, List.sum_append]
  simp [total]

theorem total_absorb (hxy : g.Apart x y) :
    (g.absorb x.id y k).total f + f y + f x = g.total f +
      f { x with data := k, nodes := x.nodes ++ y.nodes, parents := x.parents ++ y.parents } := by
  have hx : (g.classes.toList.set y.id none)[x.id]? = some (some x) := by
    rw [List.getElem?_set_ne (Ne.symm hxy.ne)]
    exact getElem_of_stored hxy.left
  have hset : (g.absorb x.id y k).classes.toList = (g.classes.toList.set y.id none).set x.id
      (some { x with
        data := k, nodes := x.nodes ++ y.nodes, parents := x.parents ++ y.parents }) := by
    show ((g.classes.setIfInBounds y.id none).modify x.id _).toList = _
    rw [Array.toList_modify, List.modify_eq_set_getElem?, Array.toList_setIfInBounds, hx]
    rfl
  have hlost := sum_map_set (·.elim 0 f) g.classes.toList y.id none (some y)
    (getElem_of_stored hxy.right)
  have hkept := sum_map_set (·.elim 0 f) (g.classes.toList.set y.id none) x.id (some { x with
    data := k, nodes := x.nodes ++ y.nodes, parents := x.parents ++ y.parents }) (some x) hx
  rw [total, hset, total]
  simp only [Option.elim_some, Option.elim_none] at hlost hkept ⊢
  omega

theorem le_total (hx : g.stored? x.id = some x) : f x ≤ g.total f := by
  have hlost := sum_map_set (·.elim 0 f) _ x.id none _ (getElem_of_stored hx)
  simp only [Option.elim_some, Option.elim_none] at hlost
  unfold total
  omega

theorem add_le_total (hxy : g.Apart x y) : f x + f y ≤ g.total f := by
  have hx : (g.classes.toList.set y.id none)[x.id]? = some (some x) := by
    rw [List.getElem?_set_ne (Ne.symm hxy.ne)]
    exact getElem_of_stored hxy.left
  have hfirst := sum_map_set (·.elim 0 f) _ y.id none _ (getElem_of_stored hxy.right)
  have hsecond := sum_map_set (·.elim 0 f) _ x.id none _ hx
  simp only [Option.elim_some, Option.elim_none] at hfirst hsecond
  unfold total
  omega

/-! ## Work -/

theorem usages_absorb (hxy : g.Apart x y) : (g.absorb x.id y k).usages = g.usages := by
  have h := total_absorb (f := (·.parents.size)) (k := k) hxy
  simp only [Array.size_append] at h
  unfold usages
  omega

theorem credit_absorb_le (hxy : g.Apart x y) (hk : mergeConstants x.data y.data = .ok k) :
    (g.absorb x.id y k).total credit + 2 ≤ g.total credit := by
  have h := total_absorb (f := credit) (k := k) hxy
  have hle : credit { x with
      data := k, nodes := x.nodes ++ y.nodes, parents := x.parents ++ y.parents } + 2 ≤
      credit x + credit y := by
    obtain ⟨hkx, hky, -⟩ := mergeConstants_eq_ok hk
    unfold credit
    cases hx : x.data with
    | none => cases k <;> cases y.data <;> simp
    | some a =>
      rw [hkx a hx]
      cases y.data <;> simp
  omega

theorem length_foldPending_absorb (hxy : g.Apart x y) :
    (g.absorb x.id y k).foldPending.length = (if k = x.data then 0 else x.parents.size) +
      (if k = y.data then 0 else y.parents.size) + g.foldPending.length := by
  rw [foldPending_absorb hxy]
  by_cases hx : k = x.data
  · by_cases hy : k = y.data
    · simp only [ne_eq, ← hx, ← hy, not_true_eq_false, if_true, if_false]
      omega
    · simp only [ne_eq, ← hx, hy, not_true_eq_false, not_false_eq_true, if_true, if_false,
        length_pushUsages]
      omega
  · by_cases hy : k = y.data
    · simp only [ne_eq, hx, ← hy, not_true_eq_false, not_false_eq_true, if_true, if_false,
        length_pushUsages]
      omega
    · simp only [ne_eq, hx, hy, not_false_eq_true, if_true, if_false, length_pushUsages]
      omega

/-- A join gives back two rounds over all usages, and asks for the usages of the class that is
lost, and of a class that becomes known. -/
theorem work_absorb_le (hxy : g.Apart x y) (hk : mergeConstants x.data y.data = .ok k) :
    (g.absorb x.id y k).work + 2 * (2 * g.usages + 1) ≤ g.work + y.parents.size +
      (if k = x.data then 0 else x.parents.size) + (if k = y.data then 0 else y.parents.size) := by
  have hcredit := Nat.mul_le_mul_right (2 * g.usages + 1) (credit_absorb_le hxy hk)
  have hpending : (g.absorb x.id y k).pending.length = y.parents.size + g.pending.length :=
    length_pushUsages _ _
  rw [work_eq, work_eq, usages_absorb hxy, length_foldPending_absorb hxy, hpending]
  rw [Nat.add_mul] at hcredit
  omega

/-- A join leaves less work than there was. -/
theorem work_absorb_lt (hxy : g.Apart x y) (hk : mergeConstants x.data y.data = .ok k) :
    (g.absorb x.id y k).work < g.work := by
  have hle := work_absorb_le hxy hk
  have hsum : x.parents.size + y.parents.size ≤ g.usages :=
    add_le_total (f := (·.parents.size)) hxy
  split at hle <;> split at hle <;> omega

end EqSat.EGraph
