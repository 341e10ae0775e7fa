import EqSat.Proofs.EGraph.Repair
import Mathlib.Data.Finset.Card

/-!
# How many classes there are

Each root names one class.  An id that is no longer a root lost its class in a join, and each join
costs one class.  So the ids, the classes and the joins of a graph add up.

    card_roots         the roots are as many as the classes
    balanced_absorb    a join costs one class
-/

namespace EqSat.EGraph

variable {g g' : EGraph} {x y : EClass} {n : ENode} {k : Option Constant}

theorem stored_of_mem_classList (hs : g.Shape) {c : EClass} (hc : c ∈ g.classList) :
    g.stored? c.id = some c := by
  obtain ⟨id, hid⟩ := mem_classList.1 hc
  rw [hs.id_eq id c hid, hid]

theorem numClasses_eq (g : EGraph) : g.numClasses = g.classList.length := by
  have key : ∀ (cs : List (Option EClass)) (k : Nat),
      cs.foldl (fun n c => if c.isSome then n + 1 else n) k =
        k + (cs.filterMap id).length := by
    intro cs
    induction cs with
    | nil => exact fun k => rfl
    | cons c cs ih =>
      intro k
      rw [List.foldl_cons, ih]
      cases c with
      | none => rfl
      | some c =>
        show k + 1 + _ = k + (c :: cs.filterMap id).length
        rw [List.length_cons]
        omega
  rw [numClasses, ← Array.foldl_toList, key, Nat.zero_add, classList]

/-! ## Roots -/

/-- The ids that name a class. -/
def roots (g : EGraph) : Finset ClassId := (g.classList.map EClass.id).toFinset

theorem mem_roots (hs : g.Shape) {id : ClassId} : id ∈ g.roots ↔ id < g.size ∧ g.find id = id := by
  rw [roots, List.mem_toFinset, List.mem_map, ← hs.stored_iff]
  constructor
  · rintro ⟨c, hc, rfl⟩
    exact ⟨c, stored_of_mem_classList hs hc⟩
  · rintro ⟨c, hc⟩
    exact ⟨c, mem_classList.2 ⟨id, hc⟩, hs.id_eq id c hc⟩

theorem card_roots_le (g : EGraph) : g.roots.card ≤ g.classList.length := by
  have h := List.toFinset_card_le (g.classList.map EClass.id)
  rwa [List.length_map] at h

/-- Classes come in the order of their ids: those that they are stored under. -/
theorem sorted_classList (hs : g.Shape) : g.classList.Pairwise fun c d => c.id < d.id := by
  have hid : ∀ (i : Nat) (hi : i < g.classes.toList.length) c,
      g.classes.toList[i] = some c → c.id = i := by
    intro i hi c hc
    refine hs.id_eq i c ?_
    rw [stored?, ← Array.getElem?_toList, List.getElem?_eq_getElem hi, hc]
    rfl
  rw [classList, List.pairwise_filterMap, List.pairwise_iff_getElem]
  intro i j hi hj hij c hc d hd
  rwa [hid i hi c hc, hid j hj d hd]

theorem nodup_map_id_classList (hs : g.Shape) : (g.classList.map EClass.id).Nodup :=
  List.pairwise_map.2 ((sorted_classList hs).imp Nat.ne_of_lt)

theorem card_roots (hs : g.Shape) : g.roots.card = g.numClasses := by
  rw [roots, List.toFinset_card_of_nodup (nodup_map_id_classList hs), List.length_map,
    numClasses_eq]

theorem roots_of_links_eq (hs : g.Shape) (hs' : g'.Shape) (h : g'.links = g.links) :
    g'.roots = g.roots := by
  ext id
  rw [mem_roots hs, mem_roots hs', find, find, size, size, h]

theorem roots_enter (hs : g.Shape) : (g.enter n).roots = insert g.size g.roots := by
  ext id
  rw [mem_roots (shape_enter hs), Finset.mem_insert, mem_roots hs, size_enter, find_enter hs,
    Nat.lt_succ_iff_lt_or_eq]
  constructor
  · rintro ⟨hlt | rfl, hf⟩
    · exact .inr ⟨hlt, hf⟩
    · exact .inl rfl
  · rintro (rfl | ⟨hlt, hf⟩)
    · exact ⟨.inr rfl, find_of_size_le (Nat.le_refl _)⟩
    · exact ⟨.inl hlt, hf⟩

theorem roots_absorb (hs : g.Shape) (hxy : g.Apart x y) :
    (g.absorb x.id y k).roots = g.roots.erase y.id := by
  ext id
  rw [mem_roots (shape_absorb hs hxy), Finset.mem_erase, mem_roots hs, size_absorb,
    find_absorb hs hxy]
  constructor
  · rintro ⟨hlt, hf⟩
    by_cases hid : g.find id = y.id
    · rw [if_pos hid] at hf
      rw [← hf, find_of_stored hs hxy.left] at hid
      exact absurd hid hxy.ne
    · rw [if_neg hid] at hf
      exact ⟨fun h => hid (hf.trans h), hlt, hf⟩
  · rintro ⟨hne, hlt, hf⟩
    exact ⟨hlt, by rw [hf, if_neg hne]⟩

/-! ## Joins -/

/-- Every id names a class, or has lost its class in a join. -/
def Balanced (g : EGraph) : Prop := g.size = g.numClasses + g.unionCount

theorem balanced_enter (hs : g.Shape) (h : g.Balanced) : (g.enter n).Balanced := by
  have hnew : g.size ∉ g.roots := fun hmem => Nat.lt_irrefl _ ((mem_roots hs).1 hmem).1
  have hcount : (g.enter n).unionCount = g.unionCount := rfl
  unfold Balanced at h ⊢
  rw [← card_roots (shape_enter hs), roots_enter hs, Finset.card_insert_of_notMem hnew,
    card_roots hs, size_enter, hcount]
  omega

/-- A join costs one class. -/
theorem balanced_absorb (hs : g.Shape) (hxy : g.Apart x y) (h : g.Balanced) :
    (g.absorb x.id y k).Balanced := by
  have hy : y.id ∈ g.roots :=
    (mem_roots hs).2 ⟨lt_of_stored hs hxy.right, find_of_stored hs hxy.right⟩
  have hpos := Finset.card_pos.2 ⟨_, hy⟩
  have hcount : (g.absorb x.id y k).unionCount = g.unionCount + 1 := rfl
  unfold Balanced at h ⊢
  rw [← card_roots (shape_absorb hs hxy), roots_absorb hs hxy, Finset.card_erase_of_mem hy,
    size_absorb, hcount]
  rw [← card_roots hs] at h
  omega

theorem balanced_of_links_eq (hs : g.Shape) (hs' : g'.Shape) (hl : g'.links = g.links)
    (hu : g'.unionCount = g.unionCount) (h : g.Balanced) : g'.Balanced := by
  unfold Balanced at h ⊢
  rw [← card_roots hs', roots_of_links_eq hs hs' hl, card_roots hs, hu, size, hl]
  exact h

end EqSat.EGraph
