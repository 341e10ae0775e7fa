import EqSat.Proofs.EGraph.Repair

/-!
# Rebuilding restores congruence

Both worklists are emptied: the bound on the usages that a rebuild looks at is never reached
before.  What is left then is a graph in which congruent nodes are in one class and every node
has been evaluated; making its lists canonical and distinct loses nothing.

    drain_empties       steps that leave less work, each on what the last one kept, come to an end
    drain_spec          the worklists are emptied, or constants conflict
    relisted_tidy       in a congruent graph, tidying lists all classes as before
    rebuild_spec        a rebuild, from any graph in order
-/

namespace EqSat.EGraph

variable {D : Type} {I : Meaning D} {g g' : EGraph} {o : Origin D} {n : ENode} {u : Usage}
  {stage : Stage} {new : ENode → Prop}

/-! ## Emptying the worklists -/

/-- The next usage is on top of one of the worklists, unless both are empty. -/
theorem takeUsage_cases (stage : Stage) (g : EGraph) :
    (takeUsage stage g = none ∧ g.pending = [] ∧ g.foldPending = []) ∨
    (∃ u rest, g.pending = u :: rest ∧
      takeUsage stage g = some (.congruence, u, { g with pending := rest })) ∨
    ∃ u rest, g.foldPending = u :: rest ∧
      takeUsage stage g = some (.constants, u, { g with foldPending := rest }) := by
  cases stage <;> cases hp : g.pending <;> cases hf : g.foldPending <;>
    simp [takeUsage, hp, hf]

theorem drain_succ (fuel unions : Nat) (stage : Stage) (g : EGraph) :
    drain (fuel + 1) stage unions g = match takeUsage stage g with
      | none => .ok unions g
      | some (.congruence, u, g₁) => (repair u >>= fun joined =>
          drain fuel .congruence (if joined then unions + 1 else unions)) g₁
      | some (.constants, u, g₁) => (refold u >>= fun _ => drain fuel .constants unions) g₁ := by
  show (match takeUsage stage g with
    | none => return unions
    | some (.congruence, u, g₁) => do
      set g₁
      let joined ← repair u
      drain fuel .congruence (if joined then unions + 1 else unions)
    | some (.constants, u, g₁) => do
      set g₁
      refold u
      drain fuel .constants unions : Update Nat) g = _
  rcases takeUsage stage g with _ | ⟨_ | _, u, g₁⟩ <;> rfl

theorem eq_nil_of_work_eq_zero (h : g.work = 0) : g.pending = [] ∧ g.foldPending = [] := by
  rw [work_eq] at h
  constructor <;> rw [← List.length_eq_zero_iff] <;> omega

/-- Worklists are emptied, with fuel for the work there is, where repairs and evaluations keep `P`
and leave less work. -/
theorem drain_empties {P : EGraph → Prop} {total : Nat}
    (hrepair : ∀ {g u rest joined g'}, P g → g.pending = u :: rest →
      repair u { g with pending := rest } = .ok joined g' → P g' ∧ g'.work < g.work)
    (hrefold : ∀ {g u rest g'}, P g → g.foldPending = u :: rest →
      refold u { g with foldPending := rest } = .ok () g' → P g' ∧ g'.work < g.work)
    (fuel : Nat) (stage : Stage) (unions : Nat) {g : EGraph} (h : P g) (hw : g.work ≤ fuel)
    (hrun : drain fuel stage unions g = .ok total g') :
    g'.pending = [] ∧ g'.foldPending = [] := by
  induction fuel generalizing stage unions g with
  | zero =>
    cases hrun
    exact eq_nil_of_work_eq_zero (Nat.le_zero.1 hw)
  | succ fuel ih =>
    rw [drain_succ] at hrun
    rcases takeUsage_cases stage g with
      ⟨htake, hempty⟩ | ⟨u, rest, hp, htake⟩ | ⟨u, rest, hp, htake⟩
    · rw [htake] at hrun
      cases hrun
      exact hempty
    · rw [htake] at hrun
      obtain ⟨joined, g₁, hstep, hrest⟩ := bind_eq_ok hrun
      obtain ⟨h₁, hless⟩ := hrepair h hp hstep
      exact ih _ _ h₁ (by omega) hrest
    · rw [htake] at hrun
      obtain ⟨_, g₁, hstep, hrest⟩ := bind_eq_ok hrun
      obtain ⟨h₁, hless⟩ := hrefold h hp hstep
      exact ih _ _ h₁ (by omega) hrest

theorem drain_ends (new : ENode → Prop) (fuel : Nat) (stage : Stage) (unions : Nat) {g : EGraph}
    {o : Origin D} (h : Valid I g o) : Ends I new g o (drain fuel stage unions g) := by
  induction fuel generalizing stage unions g o with
  | zero => exact ⟨o, h, .refl⟩
  | succ fuel ih =>
    rw [drain_succ]
    rcases takeUsage_cases stage g with
      ⟨htake, -⟩ | ⟨u, rest, hp, htake⟩ | ⟨u, rest, hp, htake⟩
    · rw [htake]
      exact ⟨o, h, .refl⟩
    · rw [htake]
      exact (repair_spec h hp new).1.bind fun joined g' o' h' => ih _ _ h'
    · rw [htake]
      exact (refold_spec h hp new).1.bind fun _ g' o' h' => ih _ _ h'

/-- **Draining**: with fuel for the work there is, the worklists are emptied, or constants of
one value conflict. -/
theorem drain_spec (new : ENode → Prop) (fuel : Nat) (stage : Stage) (unions : Nat) {g : EGraph}
    {o : Origin D} (h : Valid I g o) (hw : g.work ≤ fuel) :
    Ends I new g o (drain fuel stage unions g) ∧
      ∀ n g', drain fuel stage unions g = .ok n g' → g'.pending = [] ∧ g'.foldPending = [] := by
  refine ⟨drain_ends new fuel stage unions h, fun n g' hrun =>
    drain_empties (P := fun g => ∃ o, Valid I g o) ?_ ?_ fuel stage unions ⟨o, h⟩ hw hrun⟩
  · rintro g u rest joined g' ⟨o, h⟩ hp hrun
    obtain ⟨hends, hless⟩ := repair_spec h hp new
    rw [hrun] at hends
    obtain ⟨o', h', -⟩ := hends
    exact ⟨⟨o', h'⟩, hless joined g' hrun⟩
  · rintro g u rest g' ⟨o, h⟩ hp hrun
    obtain ⟨hends, hless⟩ := refold_spec h hp new
    rw [hrun] at hends
    obtain ⟨o', h', -⟩ := hends
    exact ⟨⟨o', h'⟩, hless g' hrun⟩

/-! ## Distinct usages -/

/-- The class that a list of usages gives a node last. -/
theorem getElem_foldl_insert (us : List Usage) (m : Std.TreeMap ENode ClassId) (n : ENode) :
    (∀ id, (us.foldl (fun m (u : Usage) => m.insert u.1 u.2) m)[n]? = some id →
      (n, id) ∈ us ∨ m[n]? = some id) ∧
    ((∃ id, (n, id) ∈ us) ∨ (∃ id, m[n]? = some id) →
      ∃ id, (us.foldl (fun m (u : Usage) => m.insert u.1 u.2) m)[n]? = some id) := by
  induction us generalizing m with
  | nil => exact ⟨fun id hid => Or.inr hid, fun h => h.resolve_left (by simp)⟩
  | cons u us ih =>
    have hinsert : ∀ id, (m.insert u.1 u.2)[n]? = some id ↔
        (n = u.1 ∧ u.2 = id) ∨ (n ≠ u.1 ∧ m[n]? = some id) := by
      intro id
      rw [getElem_insert]
      by_cases hn : n = u.1 <;> simp [hn]
    obtain ⟨hin, hout⟩ := ih (m.insert u.1 u.2)
    constructor
    · intro id hid
      rcases hin id hid with hmem | hm
      · exact Or.inl (List.mem_cons_of_mem _ hmem)
      · rcases (hinsert id).1 hm with ⟨rfl, rfl⟩ | ⟨-, hm⟩
        · exact Or.inl List.mem_cons_self
        · exact Or.inr hm
    · intro h
      refine hout ?_
      by_cases hn : n = u.1
      · exact Or.inr ⟨u.2, (hinsert _).2 (Or.inl ⟨hn, rfl⟩)⟩
      · rcases h with ⟨id, hid⟩ | ⟨id, hid⟩
        · rcases List.mem_cons.1 hid with rfl | hid
          · exact absurd rfl hn
          · exact Or.inl ⟨id, hid⟩
        · exact Or.inr ⟨id, (hinsert _).2 (Or.inr ⟨hn, hid⟩)⟩

theorem mem_distinctUsages {us : Array Usage} {n : ENode} {id : ClassId} :
    (n, id) ∈ distinctUsages us ↔
      (us.toList.foldl (fun m (u : Usage) => m.insert u.1 u.2)
        (∅ : Std.TreeMap ENode ClassId))[n]? = some id ∧ ∃ id', (n, id') ∈ us := by
  unfold distinctUsages
  simp only [Array.mem_filterMap, mem_distinctNodes, Array.mem_map, ← Array.foldl_toList,
    Option.map_eq_some_iff, Prod.mk.injEq, Prod.exists]
  constructor
  · rintro ⟨m, ⟨m', i, hmem, rfl⟩, j, hj, rfl, rfl⟩
    exact ⟨hj, i, hmem⟩
  · rintro ⟨hj, i, hmem⟩
    exact ⟨n, ⟨n, i, hmem, rfl⟩, id, hj, rfl, rfl⟩

theorem mem_of_mem_distinctUsages {us : Array Usage} (h : u ∈ distinctUsages us) : u ∈ us := by
  obtain ⟨hlast, -⟩ := mem_distinctUsages.1 h
  rcases (getElem_foldl_insert us.toList ∅ u.1).1 u.2 hlast with hmem | hno
  · exact Array.mem_toList_iff.1 hmem
  · simp at hno

/-- Every node of the usages keeps one of its classes. -/
theorem exists_mem_distinctUsages {us : Array Usage} (h : u ∈ us) :
    ∃ id, (u.1, id) ∈ distinctUsages us := by
  obtain ⟨id, hid⟩ := (getElem_foldl_insert us.toList ∅ u.1).2
    (Or.inl ⟨u.2, Array.mem_toList_iff.2 h⟩)
  exact ⟨id, mem_distinctUsages.2 ⟨hid, u.2, h⟩⟩

/-! ## Tidying -/

/-- Without repairs that are due, the memo finds every entry. -/
theorem found_of_stands (hk : g.Known o) (hp : g.pending = []) (hu : g.Stands o u) :
    g.Found u := by
  obtain ⟨i, hi, hn, hf⟩ := hu
  rcases hk i hi with ⟨j, hj, hji⟩ | ⟨w, hw, -⟩
  · exact ⟨j, by rw [hn]; exact hj, hji.trans hf.symm⟩
  · rw [hp] at hw
    cases hw

/-- Without repairs that are due, congruent entries are in one class. -/
theorem find_eq_of_canonicalize_eq {v : Usage} (hk : g.Known o) (hp : g.pending = [])
    (hu : g.Stands o u) (hv : g.Stands o v) (huv : g.canonicalize u.1 = g.canonicalize v.1) :
    g.find u.2 = g.find v.2 := by
  obtain ⟨a, ha, hau⟩ := found_of_stands hk hp hu
  obtain ⟨b, hb, hbv⟩ := found_of_stands hk hp hv
  have hab : a = b := by
    rw [huv, hb] at ha
    exact (Option.some.inj ha).symm
  rw [← hau, hab, hbv]

theorem listsAs_tidyClass {c : EClass} {id : ClassId} (hs : g.Shape) (hf : g.Founded o)
    (hk : g.Known o) (hp : g.pending = []) (hc : g.stored? id = some c) :
    g.ListsAs c (g.tidyClass c) where
  id_eq := rfl
  data := rfl
  nodes := by
    intro n hn
    obtain ⟨m, hm, rfl⟩ := Array.mem_map.1 (mem_distinctNodes.1 hn)
    exact ⟨m, hm, canonicalize_canonicalize hs m⟩
  kept := by
    intro m hm
    refine Or.inr ⟨g.canonicalize m, ?_, canonicalize_canonicalize hs m⟩
    exact mem_distinctNodes.2 (Array.mem_map.2 ⟨m, hm, rfl⟩)
  parents := by
    intro u hu
    obtain ⟨v, hv, rfl⟩ := Array.mem_map.1 (mem_of_mem_distinctUsages hu)
    exact ⟨v, hv, canonicalize_canonicalize hs v.1, find_find hs v.2⟩
  used := by
    intro v hv
    have hmem : (g.canonicalize v.1, g.find v.2) ∈
        c.parents.map fun u => (g.canonicalize u.1, g.find u.2) := Array.mem_map.2 ⟨v, hv, rfl⟩
    obtain ⟨j, hj⟩ := exists_mem_distinctUsages hmem
    obtain ⟨w, hw, hwj⟩ := Array.mem_map.1 (mem_of_mem_distinctUsages hj)
    simp only [Prod.mk.injEq] at hwj
    refine ⟨_, hj, canonicalize_canonicalize hs v.1, ?_⟩
    -- the usage that is kept may name another class, but one that is the same by congruence
    rw [← hwj.2, find_find hs]
    exact find_eq_of_canonicalize_eq hk hp (hf.parents id c hc w hw) (hf.parents id c hc v hv) hwj.1

theorem stored_tidy (g : EGraph) (id : ClassId) :
    g.tidy.stored? id = (g.stored? id).map g.tidyClass := by
  show (g.classes.map (Option.map g.tidyClass))[id]?.join = _
  rw [Array.getElem?_map, stored?]
  rcases g.classes[id]? with _ | _ | c <;> rfl

/-- **Tidying** a congruent graph lists all classes as before. -/
theorem relisted_tidy (hs : g.Shape) (hf : g.Founded o) (hk : g.Known o) (hp : g.pending = []) :
    Relisted g g.tidy where
  analysis := rfl
  links := rfl
  size_classes := Array.size_map
  memo := rfl
  pending := rfl
  foldPending := rfl
  back := by
    intro id c' hc'
    rw [stored_tidy] at hc'
    obtain ⟨c, hc, rfl⟩ := Option.map_eq_some_iff.1 hc'
    exact ⟨c, hc, listsAs_tidyClass hs hf hk hp hc⟩
  forth := by
    intro id c hc
    exact ⟨g.tidyClass c, by rw [stored_tidy, hc]; rfl, listsAs_tidyClass hs hf hk hp hc⟩

/-! ## Rebuilding -/

/-- A graph on which nothing is left to be done. -/
structure Tidy (g : EGraph) : Prop where
  pending : g.pending = []
  foldPending : g.foldPending = []
  clean : g.clean = true
  canonical : ∀ id c, g.stored? id = some c → ∀ n ∈ c.nodes, g.canonicalize n = n

theorem tidy_tidy (hs : g.Shape) (hp : g.pending = []) (hf : g.foldPending = []) :
    Tidy g.tidy := by
  refine ⟨hp, hf, rfl, ?_⟩
  intro id c' hc' n hn
  rw [stored_tidy] at hc'
  obtain ⟨c, hc, rfl⟩ := Option.map_eq_some_iff.1 hc'
  obtain ⟨m, -, rfl⟩ := Array.mem_map.1 (mem_distinctNodes.1 hn)
  exact canonicalize_canonicalize hs m

theorem valid_tidy (h : Valid I g o) (hp : g.pending = []) : Valid I g.tidy o := by
  have hr := relisted_tidy h.shape h.founded h.known hp
  exact ⟨core_relisted hr h.toCore, hr.known h.known, hr.settledBut h.settled⟩

theorem rebuild_eq (g : EGraph) : rebuild g = (drain g.work .congruence 0 >>= fun unions => do
    modify tidy
    return unions : Update Nat) g := rfl

/-- **A rebuild** leaves nothing to be done, or constants of one value conflict. -/
theorem rebuild_spec (h : Valid I g o) (new : ENode → Prop) :
    (∃ n g' o', rebuild g = .ok n g' ∧ Valid I g' o' ∧ Tidy g' ∧ Extends new g o g' o') ∨
    ∃ e g' o', rebuild g = .error e g' ∧ Lawful I g' o' ∧ Extends new g o g' o' ∧ Clash I e := by
  obtain ⟨hends, hnil⟩ := drain_spec new g.work .congruence 0 h (Nat.le_refl _)
  cases hd : drain g.work .congruence 0 g with
  | ok n g₁ =>
    rw [hd] at hends
    obtain ⟨o₁, hvalid, hext⟩ := hends
    obtain ⟨hp, hf⟩ := hnil n g₁ hd
    refine Or.inl ⟨n, g₁.tidy, o₁, by rw [rebuild_eq, bind_ok hd]; rfl, valid_tidy hvalid hp,
      tidy_tidy hvalid.shape hp hf, hext.trans (extends_relisted ?_)⟩
    exact relisted_tidy hvalid.shape hvalid.founded hvalid.known hp
  | error e g₁ =>
    rw [hd] at hends
    obtain ⟨o₁, hlawful, hext, hclash⟩ := hends
    exact Or.inr ⟨e, g₁, o₁, by rw [rebuild_eq, bind_error hd], hlawful, hext, hclash⟩

/-- A rebuild that succeeds. -/
theorem rebuild_ok {unions : Nat} (h : Valid I g o) (new : ENode → Prop)
    (hrun : rebuild g = .ok unions g') :
    ∃ o', Valid I g' o' ∧ Tidy g' ∧ Extends new g o g' o' := by
  rcases rebuild_spec h new with
    ⟨n, g'', o', hok, hvalid, htidy, hext⟩ | ⟨e, g'', o', herror, -⟩
  · rw [hok] at hrun
    cases hrun
    exact ⟨o', hvalid, htidy, hext⟩
  · rw [herror] at hrun
    cases hrun

end EqSat.EGraph
