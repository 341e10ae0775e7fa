import EqSat.Proofs.Termination.Open
import EqSat.Proofs.UnionFind.Forest

/-!
# The way to the root

Every step of a way upwards leads to an id that is less deep.  Halving the way makes no id deeper,
and no way ends elsewhere.

    forest_find    halving the way leaves a forest, with all roots as they were
    find_ends      the root is found
-/

namespace EqSat

variable {u : UnionFind} {x : Nat}

namespace UnionFind

/-- The depths of a forest fall along its parents. -/
def Falls (u : UnionFind) (depth : Nat → Nat) : Prop :=
  ∀ x, u.parent x ≠ x → depth (u.parent x) < depth x

theorem lt_size_of_parent_ne (hx : u.parent x ≠ x) : x < u.size := by
  by_contra hge
  exact hx (parent_eq_self_of_le (by omega))

theorem Falls.grandparent {depth : Nat → Nat} (h : u.Falls depth) (hx : u.parent x ≠ x) :
    depth (u.parent (u.parent x)) < depth x := by
  have hlt := h x hx
  by_cases hp : u.parent (u.parent x) = u.parent x
  · rwa [hp]
  · exact Nat.lt_trans (h _ hp) hlt

/-- The forest in which `x` points to its grandparent. -/
def halve (u : UnionFind) (x : Nat) : UnionFind := u.setParent x (u.parent (u.parent x))

theorem parent_halve (hx : u.parent x ≠ x) (y : Nat) :
    (u.halve x).parent y = if y = x then u.parent (u.parent x) else u.parent y :=
  parent_setParent u (lt_size_of_parent_ne hx) _ y

theorem Falls.halve {depth : Nat → Nat} (h : u.Falls depth) (hx : u.parent x ≠ x) :
    (u.halve x).Falls depth := by
  intro y
  rw [parent_halve hx]
  split
  · next hy =>
    rw [hy]
    exact fun _ => h.grandparent hx
  · exact h y

theorem forest_halve (h : u.Forest) (hx : u.parent x ≠ x) : (u.halve x).Forest where
  parent_lt := by
    intro y hy
    have hsize : (u.halve x).size = u.size := size_setParent u x _
    rw [hsize] at hy ⊢
    rw [parent_halve hx]
    split
    · exact h.parent_lt _ (h.parent_lt x (lt_size_of_parent_ne hx))
    · exact h.parent_lt y hy
  depth := by
    obtain ⟨depth, hdepth⟩ := h.depth
    exact ⟨depth, Falls.halve hdepth hx⟩

/-- No way ends elsewhere. -/
theorem root_halve (h : u.Forest) (hx : u.parent x ≠ x) (y : Nat) :
    (u.halve x).root y = u.root y := by
  refine eq_root_of_parent (forest_halve h hx) (fun z hz => ?_) (fun z => ?_) y
  · rw [parent_halve hx] at hz
    split at hz
    · next hzx =>
      -- the way would lead back to where it started
      obtain ⟨depth, hdepth⟩ := h.depth
      have hlt := Falls.grandparent hdepth hx
      rw [hz, hzx] at hlt
      exact absurd hlt (Nat.lt_irrefl _)
    · exact root_eq_self hz
  · rw [parent_halve hx]
    split
    · next hzx => rw [hzx, root_parent h, root_parent h]
    · exact root_parent h z

/-- Halving a way leaves a forest with the same roots. -/
theorem forest_findWithin (fuel : Nat) (h : u.Forest) (x : Nat) :
    (findWithin fuel u x).1.Forest ∧ ∀ y, (findWithin fuel u x).1.root y = u.root y := by
  induction fuel generalizing u x with
  | zero => exact ⟨h, fun _ => rfl⟩
  | succ fuel ih =>
    rw [findWithin]
    by_cases hroot : u.parent x = x
    · rw [if_pos hroot]
      exact ⟨h, fun _ => rfl⟩
    · rw [if_neg hroot]
      obtain ⟨hforest, hroots⟩ := ih (forest_halve h hroot) (u.parent (u.parent x))
      exact ⟨hforest, fun y => (hroots y).trans (root_halve h hroot y)⟩

theorem forest_find (h : u.Forest) (x : Nat) :
    (u.find x).1.Forest ∧ ∀ y, (u.find x).1.root y = u.root y :=
  forest_findWithin u.size h x

end UnionFind

namespace Open

open UnionFind

theorem find_at_root (hroot : u.parent x = x) : (call (.find x)).Ends u (.ok x u) := by
  refine .call (.after_get ?_)
  rw [if_pos hroot]
  exact .of_pure x u

theorem find_of_halve (hroot : u.parent x ≠ x) {o : EStateM.Result Conflict UnionFind Nat}
    (h : (call (.find (u.parent (u.parent x)))).Ends (u.halve x) o) :
    (call (.find x)).Ends u o := by
  refine .call (.after_get ?_)
  rw [if_neg hroot]
  exact .after_set h

/-- A way is no longer than the depth that it starts at. -/
theorem find_ends_within {depth : Nat → Nat} (fuel : Nat) {u : UnionFind} {x : Nat}
    (h : u.Forest) (hdepth : u.Falls depth) (hx : depth x ≤ fuel) :
    (call (.find x)).Ends u (.ok (findWithin fuel u x).2 (findWithin fuel u x).1) ∧
      (findWithin fuel u x).2 = u.root x := by
  induction fuel generalizing u x with
  | zero =>
    have hroot : u.parent x = x := by
      by_contra hne
      have hlt := hdepth x hne
      omega
    exact ⟨find_at_root hroot, (root_eq_self hroot).symm⟩
  | succ fuel ih =>
    rw [findWithin]
    by_cases hroot : u.parent x = x
    · rw [if_pos hroot]
      exact ⟨find_at_root hroot, (root_eq_self hroot).symm⟩
    · rw [if_neg hroot]
      have hless := hdepth.grandparent hroot
      obtain ⟨hfind, hend⟩ := ih (forest_halve h hroot) (hdepth.halve hroot)
        (x := u.parent (u.parent x)) (by omega)
      refine ⟨find_of_halve hroot hfind, hend.trans ?_⟩
      rw [root_halve h hroot, root_parent h, root_parent h]

/-- **Finding** ends at the root, and leaves all roots as they are. -/
theorem find_ends (h : u.Forest) (hx : x < u.size) :
    (call (.find x)).Ends u (.ok (u.find x).2 (u.find x).1) ∧ (u.find x).2 = u.root x ∧
      ∀ y, (u.find x).1.root y = u.root y := by
  obtain ⟨depth, hdepth, hlt⟩ := exists_depth_lt h
  obtain ⟨hends, hroot⟩ := find_ends_within u.size h hdepth (Nat.le_of_lt (hlt x hx))
  exact ⟨hends, hroot, (forest_find h x).2⟩

end Open

end EqSat
