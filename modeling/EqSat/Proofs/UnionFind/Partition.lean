import EqSat.Proofs.Termination.Paths
import Mathlib.Logic.Relation

/-!
# The sets that unions connect

New ids, finds and unions one after the other.  A union first finds both its ids; it may be one
of a set with itself, which changes nothing.  Whatever the order, the parents stay a forest, and
two ids have the same root exactly if the unions made so far connect them.

    root_union                what a union does to roots
    Parts.run                 a step leaves the sets that the unions up to it connect
    runAll_partitions         the forest and its sets after any steps
-/

namespace EqSat.UnionFind

open Relation

variable {u : UnionFind} {R : Nat → Nat → Prop} {x y : Nat}

/-! ## Steps -/

/-- What can be asked of the sets. -/
inductive Step where
  | make
  | find (x : Nat)
  | union (x y : Nat)
deriving DecidableEq

namespace Step

def run (u : UnionFind) : Step → UnionFind
  | .make => u.makeSet
  | .find x => (u.find x).1
  | .union x y => (u.union x y).1

/-- The ids that the step names exist. -/
def Fits (u : UnionFind) : Step → Prop
  | .make => True
  | .find x => x < u.size
  | .union x y => x < u.size ∧ y < u.size

instance (u : UnionFind) : DecidablePred (Fits u)
  | .make => isTrue trivial
  | .find x => inferInstanceAs (Decidable (x < u.size))
  | .union x y => inferInstanceAs (Decidable (x < u.size ∧ y < u.size))

end Step

/-- The sets after the steps. -/
def runAll (u : UnionFind) : List Step → UnionFind
  | [] => u
  | s :: steps => (s.run u).runAll steps

/-- The ids that each step names exist by then. -/
def FitAll (u : UnionFind) : List Step → Prop
  | [] => True
  | s :: steps => s.Fits u ∧ (s.run u).FitAll steps

instance decidableFitAll : (u : UnionFind) → (steps : List Step) → Decidable (u.FitAll steps)
  | _, [] => isTrue trivial
  | u, s :: steps =>
    have := decidableFitAll (s.run u) steps
    inferInstanceAs (Decidable (s.Fits u ∧ (s.run u).FitAll steps))

/-- The unions among the steps connect the ids. -/
def Linked (steps : List Step) : Nat → Nat → Prop :=
  EqvGen fun a b => .union a b ∈ steps

/-! ## Ways upwards -/

theorem Falls.iterate_le {depth : Nat → Nat} (h : u.Falls depth) (k x : Nat) :
    depth (u.parent^[k] x) ≤ depth x := by
  induction k generalizing x with
  | zero => exact Nat.le_refl _
  | succ k ih =>
    refine (ih (u.parent x)).trans ?_
    by_cases hroot : u.parent x = x
    · rw [hroot]
    · exact Nat.le_of_lt (h x hroot)

/-- A way that returns to where it was never left. -/
theorem parent_eq_self_of_iterate (h : u.Forest) {k : Nat} (hk : 0 < k)
    (hx : u.parent^[k] x = x) : u.parent x = x := by
  obtain ⟨depth, hdepth⟩ := h.depth
  obtain ⟨k, rfl⟩ := Nat.exists_eq_succ_of_ne_zero (by omega : k ≠ 0)
  by_contra hne
  have hle : depth (u.parent^[k] (u.parent x)) ≤ depth (u.parent x) := Falls.iterate_le hdepth k _
  rw [← Function.iterate_succ_apply, hx] at hle
  exact absurd (hdepth x hne) (by omega)

theorem exists_iterate_rootWithin (u : UnionFind) (fuel x : Nat) :
    ∃ k, u.parent^[k] x = u.rootWithin fuel x := by
  induction fuel generalizing x with
  | zero => exact ⟨0, rfl⟩
  | succ fuel ih =>
    rw [rootWithin]
    by_cases hroot : u.parent x = x
    · rw [if_pos hroot]
      exact ⟨0, rfl⟩
    · rw [if_neg hroot]
      obtain ⟨k, hk⟩ := ih (u.parent x)
      exact ⟨k + 1, hk⟩

/-! ## Unions -/

theorem link_self (hx : u.parent x = x) : u.link x x = u := by
  have hparents : u.parents.setIfInBounds x x = u.parents := by
    refine Array.ext_getElem? fun y => ?_
    rw [Array.getElem?_setIfInBounds]
    split
    · next hxy =>
      subst hxy
      split
      · next hlt =>
        rw [parent, Array.getElem?_eq_getElem hlt, Option.getD_some] at hx
        rw [Array.getElem?_eq_getElem hlt, hx]
      · next hge => rw [Array.getElem?_eq_none (by omega)]
    · rfl
  rw [link, setParent, hparents]

theorem find_eq_root (h : u.Forest) (hx : x < u.size) : (u.find x).2 = u.root x :=
  (Open.find_ends h hx).2.1

/-- **A union** gives the set of `y` the root of `x`. -/
theorem root_union (h : u.Forest) (hx : x < u.size) (hy : y < u.size) :
    (u.union x y).1.Forest ∧
      ∀ z, (u.union x y).1.root z = if u.root z = u.root y then u.root x else u.root z := by
  let v := (u.find x).1
  let w := (v.find y).1
  obtain ⟨hv, hvroot⟩ : v.Forest ∧ ∀ z, v.root z = u.root z := forest_find h x
  obtain ⟨hw, hwroot⟩ : w.Forest ∧ ∀ z, w.root z = v.root z := forest_find hv y
  have hroots (z : Nat) : w.root z = u.root z := (hwroot z).trans (hvroot z)
  have hvsize : v.size = u.size := size_find u x
  have hwsize : w.size = u.size := (size_find v y).trans hvsize
  have hyroot : (v.find y).2 = u.root y :=
    (find_eq_root hv (by rw [hvsize]; exact hy)).trans (hvroot y)
  have hunion : (u.union x y).1 = w.link (u.root x) (u.root y) := by
    rw [← find_eq_root h hx, ← hyroot]
    rfl
  have hfix (z : Nat) : w.root (u.root z) = u.root z := by rw [hroots, root_root h]
  have hlt {z : Nat} (hz : z < u.size) : u.root z < w.size := by
    rw [hwsize]
    exact root_lt h hz
  rw [hunion]
  by_cases heq : u.root x = u.root y
  · -- one set already: the root is pointed to itself
    have hparent : w.parent (u.root y) = u.root y := by
      rw [← hfix y]
      exact parent_root hw _
    rw [heq, link_self hparent]
    refine ⟨hw, fun z => ?_⟩
    rw [hroots]
    split
    · next hz => exact hz
    · rfl
  · refine ⟨forest_link hw (hfix x) (hfix y) heq (hlt hx) (hlt hy), fun z => ?_⟩
    rw [root_link hw (hfix x) (hfix y) heq (hlt hx) (hlt hy), hroots]

/-- Sending the set of `y` to that of `x` connects these two, and no others. -/
theorem eqvGen_insert {f : Nat → Nat} (hf : ∀ a b, f a = f b ↔ EqvGen R a b) (x y a b : Nat) :
    ((if f a = f y then f x else f a) = if f b = f y then f x else f b) ↔
      EqvGen (fun c d => R c d ∨ c = x ∧ d = y) a b := by
  have hold {c d : Nat} (hcd : f c = f d) : EqvGen (fun c d => R c d ∨ c = x ∧ d = y) c d :=
    Relation.EqvGen.mono (fun _ _ => .inl) c d ((hf c d).1 hcd)
  have hnew : EqvGen (fun c d => R c d ∨ c = x ∧ d = y) y x :=
    .symm _ _ (.rel _ _ (.inr ⟨rfl, rfl⟩))
  constructor
  · intro hab
    split at hab
    · next ha =>
      split at hab
      · next hb => exact hold (ha.trans hb.symm)
      · exact .trans _ _ _ (hold ha) (.trans _ _ _ hnew (hold hab))
    · split at hab
      · next hb => exact .trans _ _ _ (hold hab) (.symm _ _ (.trans _ _ _ (hold hb) hnew))
      · exact hold hab
  · intro hab
    induction hab with
    | rel c d hcd =>
      rcases hcd with hcd | ⟨rfl, rfl⟩
      · rw [(hf c d).2 (.rel _ _ hcd)]
      · rw [if_pos rfl, ite_self]
    | refl c => rfl
    | symm c d _ ih => exact ih.symm
    | trans c d e _ _ ih ih' => exact ih.trans ih'

/-! ## One step and many -/

/-- A forest whose sets are those that `R` connects. -/
structure Parts (u : UnionFind) (R : Nat → Nat → Prop) : Prop where
  forest : u.Forest
  root_eq_iff : ∀ a b, u.root a = u.root b ↔ EqvGen R a b

namespace Parts

theorem empty : UnionFind.empty.Parts fun _ _ => False where
  forest := forest_empty
  root_eq_iff := by
    intro a b
    rw [root_of_size_le (Nat.zero_le a), root_of_size_le (Nat.zero_le b)]
    refine ⟨fun hab => hab ▸ .refl a, fun hab => ?_⟩
    induction hab with
    | rel _ _ hcd => exact hcd.elim
    | refl => rfl
    | symm _ _ _ ih => exact ih.symm
    | trans _ _ _ _ _ ih ih' => exact ih.trans ih'

/-- Changes that leave roots alone leave the sets alone. -/
theorem of_root {v : UnionFind} (h : u.Parts R) (hv : v.Forest)
    (hroot : ∀ z, v.root z = u.root z) : v.Parts R :=
  ⟨hv, fun a b => by rw [hroot, hroot, h.root_eq_iff]⟩

/-- After a step, the sets are those that the unions up to this one connect. -/
theorem run {s : Step} (h : u.Parts R) (hs : s.Fits u) :
    (s.run u).Parts fun a b => R a b ∨ s = .union a b := by
  cases s with
  | make =>
    simp only [reduceCtorEq, or_false]
    exact h.of_root (forest_makeSet h.forest) (root_makeSet h.forest)
  | find x =>
    simp only [reduceCtorEq, or_false]
    obtain ⟨hforest, hroot⟩ := forest_find h.forest x
    exact h.of_root hforest hroot
  | union x y =>
    simp only [Step.union.injEq, @eq_comm _ x, @eq_comm _ y]
    obtain ⟨hforest, hroot⟩ := root_union h.forest hs.1 hs.2
    refine ⟨hforest, fun a b => ?_⟩
    rw [← eqvGen_insert h.root_eq_iff, Step.run, hroot, hroot]

theorem runAll {steps : List Step} (h : u.Parts R) (hsteps : u.FitAll steps) :
    (u.runAll steps).Parts fun a b => R a b ∨ .union a b ∈ steps := by
  induction steps generalizing u R with
  | nil => simpa [UnionFind.runAll] using h
  | cons s steps ih =>
    have hrest := ih (h.run hsteps.1) hsteps.2
    simpa only [UnionFind.runAll, or_assoc, List.mem_cons, eq_comm] using hrest

end Parts

/-! ## The sets -/

/-- The parents are a forest, the ways through it are found, and the roots tell which ids
`connected` relates. -/
structure Partitions (u : UnionFind) (connected : Nat → Nat → Prop) : Prop where
  /-- No way returns to where it was, except by staying there. -/
  acyclic : ∀ x k, 0 < k → u.parent^[k] x = x → u.parent x = x
  /-- The root of an id lies on its way upwards. -/
  root : ∀ x, x < u.size → (∃ k, u.parent^[k] x = u.root x) ∧ u.parent (u.root x) = u.root x
  /-- Going up without a bound comes to an end, where going up with one does. -/
  find_ends : ∀ x, x < u.size →
    (Open.call (.find x)).Ends u (.ok (u.find x).2 (u.find x).1)
  find_root : ∀ x, x < u.size → (u.find x).2 = u.root x
  /-- Halving the way changes no root. -/
  root_find : ∀ x, x < u.size → ∀ y, (u.find x).1.root y = u.root y
  root_eq_iff : ∀ a b, a < u.size → b < u.size → (u.root a = u.root b ↔ connected a b)

/-- **New ids, finds and unions** in any order leave a forest, in which every find ends at a
root.  Two ids have the same root exactly if the unions connect them. -/
theorem runAll_partitions (steps : List Step) (hsteps : empty.FitAll steps) :
    (empty.runAll steps).Partitions (Linked steps) := by
  have hparts := Parts.empty.runAll hsteps
  simp only [false_or] at hparts
  have hforest := hparts.forest
  exact {
    acyclic := fun x k hk hx => parent_eq_self_of_iterate hforest hk hx
    root := fun x _ => ⟨exists_iterate_rootWithin _ _ x, parent_root hforest x⟩
    find_ends := fun x hx => (Open.find_ends hforest hx).1
    find_root := fun x hx => find_eq_root hforest hx
    root_find := fun x hx => (Open.find_ends hforest hx).2.2
    root_eq_iff := fun a b _ _ => hparts.root_eq_iff a b }

/-- Five ids, three sets joined to one and then with itself, a way of three halved. -/
theorem runAll_partitions_five :
    let steps : List Step := [.make, .make, .make, .make, .union 1 2, .union 0 1, .union 3 2,
      .union 2 0, .find 2, .make, .find 4]
    empty.FitAll steps ∧ (empty.runAll steps).Partitions (Linked steps) ∧
      (empty.runAll steps).parents = #[3, 0, 3, 3, 4] ∧ ¬Linked steps 2 4 := by
  intro steps
  have hfits : empty.FitAll steps := by decide +kernel
  have hpart := runAll_partitions steps hfits
  refine ⟨hfits, hpart, by decide +kernel, ?_⟩
  rw [← hpart.root_eq_iff 2 4 (by decide +kernel) (by decide +kernel)]
  decide +kernel

end EqSat.UnionFind
