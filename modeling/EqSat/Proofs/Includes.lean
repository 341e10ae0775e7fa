import EqSat.Proofs.Files
import EqSat.Rule.Loading
import Mathlib.Data.Fintype.Card
import Mathlib.Data.List.Pairwise
import Mathlib.Data.Set.Finite.Basic

/-!
# What files include

The files that a file leads to are those that its lines include, and so on.  If no file leads back
to itself they can be listed, each as often as there are ways to it.  No file is listed twice
exactly where no two lines of the files include the same one.

    Unfolds.not_circular    what can be listed has no circle
    exists_unfolds          what has no circle can be listed
    Unfolds.nodup_iff       when no file is listed twice
-/

namespace EqSat

open Relation

/-- Where the includes among the lines lead, from a directory. -/
def Rule.targetsOf (base : Location) (lines : List String) : List Location :=
  lines.filterMap fun line => match ListLine.ofString line with
    | .load path => some (base.follow (Path.ofString path))
    | _ => none

namespace FileSet

variable {fs : FileSet} {l m t start : Location} {ls us vs : List Location}

/-- The files that a file includes, one for each line that does. -/
def targets (fs : FileSet) (l : Location) : List Location :=
  match fs.text? l with
  | some text => Rule.targetsOf l.parent (Rule.linesOf text)
  | none => []

def Includes (fs : FileSet) (l m : Location) : Prop := m ∈ fs.targets l

/-- Some file that `start` leads to includes itself, directly or through other files. -/
def Circular (fs : FileSet) (start : Location) : Prop :=
  ∃ l, ReflTransGen fs.Includes start l ∧ TransGen fs.Includes l l

/-- No two lines of the files that `start` leads to include the same file. -/
structure EachOnce (fs : FileSet) (start : Location) : Prop where
  one : ∀ l, ReflTransGen fs.Includes start l → (fs.targets l).Nodup
  apart : ∀ l m, ReflTransGen fs.Includes start l → ReflTransGen fs.Includes start m →
    ∀ t, fs.Includes l t → fs.Includes m t → l = m

/-- The files listed when each file is followed by those that it includes. -/
inductive Unfolds (fs : FileSet) : List Location → List Location → Prop
  | nil : Unfolds fs [] []
  | cons {l : Location} {ls us vs : List Location} : Unfolds fs (fs.targets l) us →
      Unfolds fs ls vs → Unfolds fs (l :: ls) (l :: us ++ vs)

namespace Unfolds

theorem unique (h : fs.Unfolds ls us) (h' : fs.Unfolds ls vs) : us = vs := by
  induction h generalizing vs with
  | nil =>
    cases h'
    rfl
  | cons _ _ ihl ihs =>
    cases h' with
    | cons hl hs => rw [ihl hl, ihs hs]

/-- A file is listed at the start, or for one that includes it. -/
theorem perm (h : fs.Unfolds ls us) : us.Perm (ls ++ us.flatMap fs.targets) := by
  induction h with
  | nil => exact .nil
  | @cons l ls us vs _ _ ihl ihs =>
    rw [List.cons_append, List.cons_append, List.flatMap_cons, List.flatMap_append]
    have hswap := List.perm_append_comm_assoc (fs.targets l ++ us.flatMap fs.targets) ls
      (vs.flatMap fs.targets)
    rw [List.append_assoc (fs.targets l) _ (vs.flatMap fs.targets)] at hswap
    exact .cons l ((ihl.append ihs).trans hswap)

theorem mem_of_mem (h : fs.Unfolds ls us) (hl : l ∈ ls) : l ∈ us :=
  h.perm.mem_iff.2 (List.mem_append_left _ hl)

theorem mem_of_includes (h : fs.Unfolds ls us) (hl : l ∈ us) (ht : fs.Includes l t) : t ∈ us :=
  h.perm.mem_iff.2 (List.mem_append_right _ (List.mem_flatMap.2 ⟨l, hl, ht⟩))

/-- All files that `start` leads to are listed. -/
theorem mem_of_leads (h : fs.Unfolds (fs.targets start) us)
    (hl : ReflTransGen fs.Includes start l) : l ∈ start :: us := by
  induction hl with
  | refl => exact List.mem_cons_self
  | @tail m t _ ht ih =>
    refine List.mem_cons_of_mem start ?_
    rcases List.mem_cons.1 ih with rfl | hm
    · exact h.mem_of_mem ht
    · exact h.mem_of_includes hm ht

/-- And no others. -/
theorem leads_of_mem (h : fs.Unfolds ls us)
    (hls : ∀ l ∈ ls, ReflTransGen fs.Includes start l) :
    ∀ l ∈ us, ReflTransGen fs.Includes start l := by
  induction h with
  | nil => exact List.forall_mem_nil _
  | cons _ _ ihl ihs =>
    obtain ⟨hl, hrest⟩ := List.forall_mem_cons.1 hls
    exact List.forall_mem_cons.2
      ⟨hl, List.forall_mem_append.2 ⟨ihl fun t ht => hl.tail ht, ihs hrest⟩⟩

/-! ## Circles -/

theorem acc (h : fs.Unfolds ls us) : ∀ l ∈ ls, Acc (Function.swap fs.Includes) l := by
  induction h with
  | nil => exact List.forall_mem_nil _
  | cons _ _ ihl ihs => exact List.forall_mem_cons.2 ⟨⟨_, ihl⟩, ihs⟩

/-- What can be listed has no circle. -/
theorem not_circular (h : fs.Unfolds (fs.targets start) us) : ¬ fs.Circular start := by
  rintro ⟨l, hl, hcircle⟩
  have hstart : Acc (Function.swap fs.Includes) start := ⟨_, h.acc⟩
  have hacc : Acc (TransGen (Function.swap fs.Includes)) l := by
    refine Acc.transGen ?_
    clear hcircle
    induction hl with
    | refl => exact hstart
    | tail _ ht ih => exact Acc.inv ih ht
  induction hacc with
  | intro l _ ih => exact ih l (transGen_swap.2 hcircle) hl hcircle

end Unfolds

/-- The files of a list can be listed together if each of them can. -/
theorem exists_unfolds_list (h : ∀ l ∈ ls, ∃ us, fs.Unfolds (fs.targets l) us) :
    ∃ us, fs.Unfolds ls us := by
  induction ls with
  | nil => exact ⟨[], .nil⟩
  | cons l ls ih =>
    obtain ⟨hl, hls⟩ := List.forall_mem_cons.1 h
    obtain ⟨us, hus⟩ := hl
    obtain ⟨vs, hvs⟩ := ih hls
    exact ⟨_, .cons hus hvs⟩

theorem file?_of_notMem (h : l ∉ fs.files.map Prod.fst) : fs.file? l = none := by
  refine List.lookup_eq_none_iff.2 fun p hp => ?_
  rw [bne_iff_ne]
  exact fun heq => h (List.mem_map.2 ⟨p, hp, heq.symm⟩)

/-- Only files include others. -/
theorem targets_of_notMem (h : l ∉ fs.files.map Prod.fst) : fs.targets l = [] := by
  rw [targets, text?, file?_of_notMem h, Option.map_none]

/-- What has no circle can be listed: there are only so many files. -/
theorem exists_unfolds (h : ¬ fs.Circular start) : ∃ us, fs.Unfolds (fs.targets start) us := by
  let Below := {l : Location // ReflTransGen fs.Includes start l ∧ l ∈ fs.files.map Prod.fst}
  have hfinite : Finite Below :=
    ((List.finite_toSet (fs.files.map Prod.fst)).subset fun l hl => hl.2).to_subtype
  let Under (m l : Below) : Prop := TransGen fs.Includes l.1 m.1
  have htrans : IsTrans Below Under := ⟨fun _ _ _ hab hbc => hbc.trans hab⟩
  have hirrefl : Std.Irrefl Under := ⟨fun l hl => h ⟨l.1, l.2.1, hl⟩⟩
  have hwf : WellFounded Under := Finite.wellFounded_of_trans_of_irrefl _
  have hfile : ∀ l, (∀ hl : l ∈ fs.files.map Prod.fst, ∃ us, fs.Unfolds (fs.targets l) us) →
      ∃ us, fs.Unfolds (fs.targets l) us := by
    intro l hl
    by_cases hmem : l ∈ fs.files.map Prod.fst
    · exact hl hmem
    · rw [targets_of_notMem hmem]
      exact ⟨[], .nil⟩
  have hall : ∀ x : Below, ∃ us, fs.Unfolds (fs.targets x.1) us := by
    intro x
    induction x using hwf.induction with
    | _ x ih =>
      refine exists_unfolds_list fun t ht => hfile t fun hmem => ?_
      exact ih ⟨t, x.2.1.tail ht, hmem⟩ (.single ht)
  exact hfile start fun hmem => hall ⟨start, .refl, hmem⟩

/-! ## Repetitions -/

/-- Where only one file includes `t`, and once, `t` is included as often as that file is listed. -/
theorem count_flatMap_le (hone : ∀ m ∈ ls, (fs.targets m).Nodup)
    (honly : ∀ m ∈ ls, fs.Includes m t → m = l) :
    (ls.flatMap fs.targets).count t ≤ ls.count l := by
  induction ls with
  | nil => exact Nat.le_refl 0
  | cons m ls ih =>
    obtain ⟨hm, hrest⟩ := List.forall_mem_cons.1 hone
    obtain ⟨hml, honly'⟩ := List.forall_mem_cons.1 honly
    rw [List.flatMap_cons, List.count_append, List.count_cons]
    have hle := ih hrest honly'
    by_cases ht : fs.Includes m t
    · have hcount := List.nodup_iff_count_le_one.1 hm t
      rw [if_pos (beq_iff_eq.2 (hml ht))]
      omega
    · rw [List.count_eq_zero_of_not_mem ht]
      omega

namespace Unfolds

theorem perm_start (h : fs.Unfolds (fs.targets start) us) :
    us.Perm ((start :: us).flatMap fs.targets) := by
  rw [List.flatMap_cons]
  exact h.perm

/-- No file is listed twice if no two lines include the same one, and only then. -/
theorem nodup_iff (h : fs.Unfolds (fs.targets start) us) : us.Nodup ↔ fs.EachOnce start := by
  have hleads : ∀ m ∈ start :: us, ReflTransGen fs.Includes start m :=
    List.forall_mem_cons.2 ⟨.refl, h.leads_of_mem fun _ ht => .single ht⟩
  constructor
  · intro hnodup
    obtain ⟨hone, hapart⟩ := List.nodup_flatMap.1 (h.perm_start.nodup_iff.1 hnodup)
    have hsymm : Std.Symm (Function.onFun List.Disjoint fs.targets) :=
      ⟨fun _ _ hlm => hlm.symm⟩
    refine ⟨fun l hl => hone l (h.mem_of_leads hl), fun l m hl hm t hlt hmt => ?_⟩
    by_contra hne
    exact hapart.forall (h.mem_of_leads hl) (h.mem_of_leads hm) hne hlt hmt
  · intro honce
    -- by induction along the includes that lead to a file: the start is listed once, and each file
    -- after the only one that includes it
    have hcount : ∀ l, ReflTransGen fs.Includes start l → (start :: us).count l ≤ 1 := by
      intro l hl
      have hstart : us.count start = 0 := by
        refine List.count_eq_zero_of_not_mem fun hmem => h.not_circular ?_
        obtain ⟨m, hm, ht⟩ := List.mem_flatMap.1 (h.perm_start.mem_iff.1 hmem)
        exact ⟨start, .refl, .tail' (hleads m hm) ht⟩
      induction hl with
      | refl => rw [List.count_cons_self, hstart]
      | @tail m t hm ht ih =>
        have hne : start ≠ t := fun heq => h.not_circular ⟨m, hm, .head' ht (heq ▸ hm)⟩
        rw [List.count_cons_of_ne hne, h.perm_start.count_eq]
        refine Nat.le_trans (count_flatMap_le (l := m) (fun x hx => honce.one x (hleads x hx))
          fun x hx hxt => honce.apart x m (hleads x hx) hm t hxt ht) ih
    rw [List.nodup_iff_count_le_one]
    intro l
    by_cases hmem : l ∈ us
    · refine Nat.le_trans ?_ (hcount l (hleads l (List.mem_cons_of_mem start hmem)))
      exact List.count_le_count_cons
    · rw [List.count_eq_zero_of_not_mem hmem]
      exact Nat.zero_le 1

end Unfolds

end FileSet

end EqSat
