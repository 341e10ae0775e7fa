import EqSat.UnionFind
import Mathlib.Data.Finset.Card
import Mathlib.Data.Finset.Range

/-!
# Forests of parents

The parents form a forest if some depth falls from every node to its parent.  Then every
node has a root within as many steps as there are ids, and the two changes of a forest
that a graph makes are known by what they do to roots.

    u.Forest → u.parent (u.root x) = u.root x                                    (parent_root)
    u.Forest → u.makeSet.root x = u.root x                                       (root_makeSet)
    (u.link a b).root x = if u.root x = b then a else u.root x                   (root_link)
-/

namespace EqSat.UnionFind

/-- Parents are ids, and no way upwards returns to where it was. -/
structure Forest (u : UnionFind) : Prop where
  parent_lt : ∀ x, x < u.size → u.parent x < u.size
  depth : ∃ depth : Nat → Nat, ∀ x, u.parent x ≠ x → depth (u.parent x) < depth x

variable {u : UnionFind}

theorem forest_empty : empty.Forest where
  parent_lt := fun x hx => absurd hx (Nat.not_lt_zero x)
  depth := ⟨fun _ => 0, fun x hx => absurd (by simp [parent, empty]) hx⟩

theorem parent_eq_self_of_le {x : Nat} (hx : u.size ≤ x) : u.parent x = x := by
  unfold parent
  rw [Array.getElem?_eq_none hx, Option.getD_none]

/-- A depth can be chosen below the number of ids: count the ids that are less deep. -/
theorem exists_depth_lt (h : u.Forest) :
    ∃ depth : Nat → Nat, (∀ x, u.parent x ≠ x → depth (u.parent x) < depth x) ∧
      ∀ x, x < u.size → depth x < u.size := by
  obtain ⟨depth, hdepth⟩ := h.depth
  refine ⟨fun x => ((Finset.range u.size).filter (depth · < depth x)).card, ?_, ?_⟩
  · intro x hx
    have hlt : x < u.size := by
      by_contra hge
      exact hx (parent_eq_self_of_le (by omega))
    refine Finset.card_lt_card (Finset.ssubset_iff_of_subset ?_ |>.2 ⟨u.parent x, ?_, ?_⟩)
    · intro y hy
      rw [Finset.mem_filter] at hy ⊢
      exact ⟨hy.1, Nat.lt_trans hy.2 (hdepth x hx)⟩
    · rw [Finset.mem_filter, Finset.mem_range]
      exact ⟨h.parent_lt x hlt, hdepth x hx⟩
    · rw [Finset.mem_filter]
      exact fun hy => Nat.lt_irrefl _ hy.2
  · intro x hx
    have hsub : (Finset.range u.size).filter (depth · < depth x) ⊂ Finset.range u.size := by
      rw [Finset.filter_ssubset]
      exact ⟨x, Finset.mem_range.2 hx, Nat.lt_irrefl _⟩
    simpa using Finset.card_lt_card hsub

theorem parent_rootWithin {depth : Nat → Nat}
    (hdepth : ∀ x, u.parent x ≠ x → depth (u.parent x) < depth x) (fuel x : Nat)
    (hx : depth x ≤ fuel) : u.parent (u.rootWithin fuel x) = u.rootWithin fuel x := by
  induction fuel generalizing x with
  | zero =>
    by_contra hne
    have hlt := hdepth x hne
    omega
  | succ fuel ih =>
    unfold rootWithin
    by_cases hp : u.parent x = x
    · simp [hp]
    · simp only [hp, if_false]
      have hlt := hdepth x hp
      exact ih (u.parent x) (by omega)

theorem root_of_size_le {x : Nat} (hx : u.size ≤ x) : u.root x = x :=
  root_eq_self (parent_eq_self_of_le hx)

theorem parent_root (h : u.Forest) (x : Nat) : u.parent (u.root x) = u.root x := by
  by_cases hx : x < u.size
  · obtain ⟨depth, hdepth, hlt⟩ := exists_depth_lt h
    exact parent_rootWithin hdepth u.size x (Nat.le_of_lt (hlt x hx))
  · rw [root_of_size_le (by omega), parent_eq_self_of_le (by omega)]

theorem root_root (h : u.Forest) (x : Nat) : u.root (u.root x) = u.root x :=
  root_eq_self (parent_root h x)

theorem rootWithin_lt (h : u.Forest) (fuel x : Nat) (hx : x < u.size) :
    u.rootWithin fuel x < u.size := by
  induction fuel generalizing x with
  | zero => exact hx
  | succ fuel ih =>
    unfold rootWithin
    by_cases hp : u.parent x = x
    · simpa [hp] using hx
    · simp only [hp, if_false]
      exact ih (u.parent x) (h.parent_lt x hx)

theorem root_lt (h : u.Forest) {x : Nat} (hx : x < u.size) : u.root x < u.size :=
  rootWithin_lt h u.size x hx

theorem root_lt_iff (h : u.Forest) {x : Nat} : u.root x < u.size ↔ x < u.size := by
  refine ⟨fun hr => ?_, root_lt h⟩
  by_contra hx
  rw [root_of_size_le (by omega)] at hr
  exact hx hr

/-- Once the root is reached, more fuel changes nothing. -/
theorem rootWithin_add (fuel more x : Nat)
    (h : u.parent (u.rootWithin fuel x) = u.rootWithin fuel x) :
    u.rootWithin (fuel + more) x = u.rootWithin fuel x := by
  induction fuel generalizing x with
  | zero => exact rootWithin_eq_self h _
  | succ fuel ih =>
    rw [show fuel + 1 + more = (fuel + more) + 1 by omega]
    unfold rootWithin at h ⊢
    by_cases hp : u.parent x = x
    · simp [hp]
    · simp only [hp, if_false] at h ⊢
      exact ih (u.parent x) h

theorem root_parent (h : u.Forest) (x : Nat) : u.root (u.parent x) = u.root x := by
  by_cases hp : u.parent x = x
  · rw [hp]
  · have hstep : u.rootWithin (u.size + 1) x = u.root (u.parent x) := by
      simp [rootWithin, hp, root]
    rw [← hstep, rootWithin_add u.size 1 x (parent_root h x)]
    rfl

/-- The root is the only end of the ways upwards: what is constant along parents and fixes
the roots is the root. -/
theorem eq_root_of_parent (h : u.Forest) {f : Nat → Nat} (hroot : ∀ x, u.parent x = x → f x = x)
    (hstep : ∀ x, f (u.parent x) = f x) (x : Nat) : u.root x = f x := by
  obtain ⟨depth, hdepth⟩ := h.depth
  induction hd : depth x using Nat.strongRecOn generalizing x with
  | ind d ih =>
    by_cases hp : u.parent x = x
    · rw [root_eq_self hp, hroot x hp]
    · rw [← root_parent h x, ← hstep x]
      exact ih _ (by rw [← hd]; exact hdepth x hp) _ rfl

/-! ## Changes -/

theorem forest_makeSet (h : u.Forest) : u.makeSet.Forest where
  parent_lt := by
    intro x hx
    rw [size_makeSet] at hx ⊢
    rw [parent_makeSet]
    by_cases hxu : x < u.size
    · have := h.parent_lt x hxu
      omega
    · rw [parent_eq_self_of_le (by omega)]
      exact hx
  depth := by
    obtain ⟨depth, hdepth⟩ := h.depth
    exact ⟨depth, fun x hx => by rw [parent_makeSet] at hx ⊢; exact hdepth x hx⟩

theorem root_makeSet (h : u.Forest) (x : Nat) : u.makeSet.root x = u.root x := by
  refine eq_root_of_parent (forest_makeSet h) (fun y hy => ?_) (fun y => ?_) x
  · rw [parent_makeSet] at hy
    exact root_eq_self hy
  · rw [parent_makeSet]
    exact root_parent h y

variable {a b : Nat}

theorem forest_link (h : u.Forest) (ha : u.root a = a) (hb : u.root b = b) (hab : a ≠ b)
    (hau : a < u.size) (hbu : b < u.size) : (u.link a b).Forest where
  parent_lt := by
    intro x hx
    rw [size_link] at hx ⊢
    rw [link, parent_setParent u hbu]
    split
    · exact hau
    · exact h.parent_lt x hx
  depth := by
    obtain ⟨depth, hdepth⟩ := h.depth
    -- everything below `b` sinks below `a`
    refine ⟨fun x => if u.root x = b then depth x + depth a + 1 else depth x, fun x hx => ?_⟩
    rw [link, parent_setParent u hbu] at hx ⊢
    by_cases hxb : x = b
    · subst hxb
      simp only [if_true, ha, hb, hab, if_false]
      omega
    · simp only [hxb, if_false] at hx ⊢
      rw [root_parent h]
      have hlt := hdepth x hx
      split <;> omega

theorem root_link (h : u.Forest) (ha : u.root a = a) (hb : u.root b = b) (hab : a ≠ b)
    (hau : a < u.size) (hbu : b < u.size) (x : Nat) :
    (u.link a b).root x = if u.root x = b then a else u.root x := by
  refine eq_root_of_parent (f := fun x => if u.root x = b then a else u.root x)
    (forest_link h ha hb hab hau hbu) (fun y hy => ?_) (fun y => ?_) x
  · rw [link, parent_setParent u hbu] at hy
    by_cases hyb : y = b
    · exact absurd (by simpa [hyb] using hy) hab
    · rw [if_neg hyb] at hy
      simp only [root_eq_self hy, hyb, if_false]
  · rw [link, parent_setParent u hbu]
    by_cases hyb : y = b
    · subst hyb
      simp only [if_true, ha, hb, hab, if_false]
    · simp only [hyb, if_false, root_parent h]

end EqSat.UnionFind
