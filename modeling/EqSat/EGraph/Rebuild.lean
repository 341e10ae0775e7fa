import EqSat.EGraph.Update
import Std.Data.TreeSet

/-!
# Rebuilding

Two worklists remember the usages that a join may have made congruent or foldable.  A
rebuild takes them off one by one, first all for congruence and then all for constants, as
long as there are any; then it makes the nodes of all classes canonical and distinct.

    n ∈ distinctNodes ns ↔ n ∈ ns                     (mem_distinctNodes)
    (distinctNodes ns).toList.Nodup                    (nodup_distinctNodes)
-/

namespace EqSat

/-- Nodes without duplicates: as a set, and in the order in which they came. -/
abbrev Kept := Std.TreeSet ENode × Array ENode

/-- Keep a node that has not been seen. -/
def keepNew (kept : Kept) (n : ENode) : Kept :=
  if kept.1.contains n then kept else (kept.1.insert n, kept.2.push n)

/-- The nodes with later duplicates left out. -/
def distinctNodes (ns : Array ENode) : Array ENode := (ns.foldl keepNew (∅, #[])).2

/-- One usage for every node, at the place of its first and with the class of its last. -/
def distinctUsages (us : Array Usage) : Array Usage :=
  let last := us.foldl (fun m (n, id) => m.insert n id) (∅ : Std.TreeMap ENode ClassId)
  (distinctNodes (us.map Prod.fst)).filterMap fun n => (last[n]?).map fun id => (n, id)

/-- Which worklist the last usage came from; that one is emptied first. -/
inductive Stage where
  | congruence
  | constants
deriving DecidableEq, Repr

namespace EGraph

/-- Look at one usage again: a congruent node that is present already joins the classes. -/
def repair (u : Usage) : Update Bool := do
  let g ← get
  let n := g.canonicalize u.1
  let present := g.memo[n]?
  set { g with memo := g.memo.insert n u.2 }
  match present with
  | some id => union id u.2
  | none => return false

/-- Evaluate the node of a usage again and give its class the constant, if there is one. -/
def refold (u : Usage) : Update Unit := do
  let g ← get
  match g.classAt? u.2 with
  | none => return ()
  | some c =>
    match mergeConstants c.data (g.foldNode u.1) with
    | .error (left, right) => throw ⟨left, right, c.id, c.id⟩
    | .ok data =>
      if data = c.data then return ()
      let foldPending := pushUsages c.parents g.foldPending
      set { g.modifyClass c.id ({ · with data := data }) with foldPending := foldPending }
      settle c.id

/-- The next usage, with the stage it belongs to, and the graph without it. -/
def takeUsage (stage : Stage) (g : EGraph) : Option (Stage × Usage × EGraph) :=
  match stage, g.pending, g.foldPending with
  | .congruence, u :: rest, _ => some (.congruence, u, { g with pending := rest })
  | .congruence, [], u :: rest => some (.constants, u, { g with foldPending := rest })
  | .constants, _, u :: rest => some (.constants, u, { g with foldPending := rest })
  | .constants, u :: rest, [] => some (.congruence, u, { g with pending := rest })
  | _, [], [] => none

/-- Work through the worklists, at most `fuel` usages; `unions` counts the joins. -/
def drain : Nat → Stage → Nat → Update Nat
  | 0, _, unions => return unions
  | fuel + 1, stage, unions => do
    match takeUsage stage (← get) with
    | none => return unions
    | some (.congruence, u, g) =>
      set g
      let joined ← repair u
      drain fuel .congruence (if joined then unions + 1 else unions)
    | some (.constants, u, g) =>
      set g
      refold u
      drain fuel .constants unions

/-- A bound on the usages a rebuild looks at.  Each class can be lost once and can become
known once, either of which puts no usage on the worklists more than twice. -/
def work (g : EGraph) : Nat :=
  let steps := g.classes.foldl (fun n c => match c with
    | some c => n + if c.data.isNone then 3 else 2
    | none => n) 0
  let usages := g.classes.foldl (fun n c => match c with
    | some c => n + c.parents.size
    | none => n) 0
  steps * (2 * usages + 1) + g.pending.length + g.foldPending.length

/-- Canonical and distinct nodes and usages. -/
def tidyClass (g : EGraph) (c : EClass) : EClass :=
  { c with
    nodes := distinctNodes (c.nodes.map g.canonicalize)
    parents := distinctUsages (c.parents.map fun (n, id) => (g.canonicalize n, g.find id)) }

def tidy (g : EGraph) : EGraph :=
  { g with classes := g.classes.map (Option.map g.tidyClass), clean := true }

/-- Restore congruence and the constants of all classes.  Gives the number of joins. -/
def rebuild : Update Nat := do
  let unions ← drain (← get).work .congruence 0
  modify tidy
  return unions

theorem tidyClass_eq (g : EGraph) (c : EClass) : g.tidyClass c = { c with
    nodes := distinctNodes (c.nodes.map g.canonicalize)
    parents := distinctUsages (c.parents.map fun u => (g.canonicalize u.1, g.find u.2)) } := rfl

end EGraph

/-! ## Lemmas -/

/-- The set and the nodes in order agree, and no node is there twice. -/
def Kept.Agree (kept : Kept) : Prop :=
  kept.2.toList.Nodup ∧ ∀ n, kept.1.contains n = true ↔ n ∈ kept.2

theorem agree_empty : Kept.Agree (∅, #[]) := ⟨by simp, by simp⟩

theorem mem_keepNew {kept : Kept} (h : kept.Agree) (n m : ENode) :
    n ∈ (keepNew kept m).2 ↔ n ∈ kept.2 ∨ n = m := by
  unfold keepNew
  by_cases hm : kept.1.contains m = true
  · rw [if_pos hm]
    constructor
    · exact Or.inl
    · rintro (hn | rfl)
      · exact hn
      · exact (h.2 n).1 hm
  · rw [if_neg hm]
    exact Array.mem_push

theorem agree_keepNew {kept : Kept} (h : kept.Agree) (m : ENode) : (keepNew kept m).Agree := by
  unfold keepNew
  by_cases hm : kept.1.contains m = true
  · rwa [if_pos hm]
  · rw [if_neg hm]
    constructor
    · show (kept.2.push m).toList.Nodup
      rw [Array.toList_push, List.nodup_append]
      refine ⟨h.1, by simp, ?_⟩
      rintro a ha b hb rfl
      obtain rfl := List.mem_singleton.1 hb
      exact hm ((h.2 a).2 (Array.mem_toList_iff.1 ha))
    · intro n
      show (kept.1.insert m).contains n = true ↔ n ∈ kept.2.push m
      rw [Std.TreeSet.contains_insert, Array.mem_push, Bool.or_eq_true, h.2 n, beq_iff_eq,
        Std.LawfulEqCmp.compare_eq_iff_eq]
      constructor
      · rintro (rfl | hn)
        · exact Or.inr rfl
        · exact Or.inl hn
      · rintro (hn | rfl)
        · exact Or.inr hn
        · exact Or.inl rfl

theorem foldl_keepNew (ns : List ENode) {kept : Kept} (h : kept.Agree) :
    (ns.foldl keepNew kept).Agree ∧
      ∀ n, n ∈ (ns.foldl keepNew kept).2 ↔ n ∈ kept.2 ∨ n ∈ ns := by
  induction ns generalizing kept with
  | nil => exact ⟨h, fun n => by simp⟩
  | cons m ms ih =>
    obtain ⟨hagree, hmem⟩ := ih (agree_keepNew h m)
    refine ⟨hagree, fun n => ?_⟩
    rw [List.foldl_cons, hmem, mem_keepNew h, List.mem_cons]
    exact or_assoc

theorem mem_distinctNodes {ns : Array ENode} {n : ENode} : n ∈ distinctNodes ns ↔ n ∈ ns := by
  rw [distinctNodes, ← Array.foldl_toList, (foldl_keepNew ns.toList agree_empty).2 n]
  simp

theorem nodup_distinctNodes (ns : Array ENode) : (distinctNodes ns).toList.Nodup := by
  rw [distinctNodes, ← Array.foldl_toList]
  exact (foldl_keepNew ns.toList agree_empty).1.1

end EqSat
