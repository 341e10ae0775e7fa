import EqSat.Proofs.Termination

/-!
# Counts by rule

A report counts by name, so two rules of one name share an entry: the matches of the later one
replace those of the earlier one, and the classes that they join are added up.  Where all names are
different, every entry stands for one rule.

    foldl_update               entering numbers at different names lists them
    applyFound_ok              the counts of the rules, then entered by name
    Underway.keepsApart        reports of rules with different names
-/

namespace EqSat

open EGraph

namespace Tally

variable {α : Type} {name : String} {f : Option Nat → Nat} {t : Tally} {xs : List α}

/-- The number at a name, zero where there is none. -/
def number (t : Tally) (name : String) : Nat := (t.lookup name).getD 0

/-- A name that is not there is entered at the end. -/
theorem update_of_notMem (h : name ∉ t.map Prod.fst) :
    t.update name f = t ++ [(name, f none)] := by
  induction t with
  | nil => rfl
  | cons entry t ih =>
    obtain ⟨key, n⟩ := entry
    rw [List.map_cons, List.mem_cons, not_or] at h
    rw [update, if_neg (Ne.symm h.1), ih h.2, List.cons_append]

/-- Numbers that are not zero, entered one after the other at different names, are listed. -/
theorem foldl_update (key : α → String) (size : α → Nat) {change : α → Option Nat → Nat}
    (hchange : ∀ x, change x none = size x) (h : (t.map Prod.fst ++ xs.map key).Nodup) :
    xs.foldl (fun t x => if size x = 0 then t else t.update (key x) (change x)) t =
      t ++ (xs.filter (size · ≠ 0)).map fun x => (key x, size x) := by
  induction xs generalizing t with
  | nil => simp
  | cons x xs ih =>
    rw [List.map_cons] at h
    rw [List.foldl_cons]
    by_cases hx : size x = 0
    · have hrest : (t.map Prod.fst ++ xs.map key).Nodup :=
        h.sublist ((List.sublist_cons_self _ _).append_left _)
      rw [if_pos hx, ih hrest, List.filter_cons_of_neg (by simp [hx])]
    · have hnew : key x ∉ t.map Prod.fst := fun hmem =>
        (List.nodup_append.1 h).2.2 _ hmem _ List.mem_cons_self rfl
      rw [if_neg hx, update_of_notMem hnew, hchange, ih (by simpa using h),
        List.filter_cons_of_pos (by simp [hx]), List.map_cons, List.append_assoc,
        List.singleton_append]

theorem number_cons (key : String) (n : Nat) (t : Tally) :
    number ((key, n) :: t) name = if name = key then n else t.number name := by
  rw [number, List.lookup_cons]
  by_cases h : name = key
  · simp [h]
  · rw [if_neg h, beq_false_of_ne h]
    rfl

theorem number_count (t : Tally) (key : String) (n : Nat) :
    (t.count key n).number name = t.number name + if name = key then n else 0 := by
  induction t with
  | nil => rw [count, update, number_cons]; simp [number]
  | cons entry t ih =>
    obtain ⟨key', m⟩ := entry
    rw [count, update]
    by_cases hkey : key' = key
    · rw [if_pos hkey, number_cons, number_cons, hkey]
      split <;> simp
    · rw [if_neg hkey, number_cons, number_cons]
      by_cases hname : name = key'
      · have hne : name ≠ key := fun heq => hkey (hname.symm.trans heq)
        rw [if_pos hname, if_pos hname, if_neg hne, Nat.add_zero]
      · rw [if_neg hname, if_neg hname]
        exact ih

theorem number_of_notMem (h : name ∉ t.map Prod.fst) : t.number name = 0 := by
  have hnone : t.lookup name = none := by
    refine List.lookup_eq_none_iff.2 fun p hp => ?_
    rw [bne_iff_ne]
    exact fun heq => h (List.mem_map.2 ⟨p, hp, heq.symm⟩)
  rw [number, hnone, Option.getD_none]

/-- Adding the numbers of a tally to another. -/
theorem number_foldl_count {u : Tally} (h : (u.map Prod.fst).Nodup) (t : Tally) :
    (u.foldl (fun t (key, n) => t.count key n) t).number name = t.number name + u.number name := by
  induction u generalizing t with
  | nil => rfl
  | cons entry u ih =>
    obtain ⟨key, n⟩ := entry
    rw [List.map_cons, List.nodup_cons] at h
    rw [List.foldl_cons, ih h.2, number_count, number_cons]
    by_cases hname : name = key
    · have hzero : number u name = 0 := number_of_notMem (hname ▸ h.1)
      rw [if_pos hname, if_pos hname, hzero, Nat.add_zero]
    · rw [if_neg hname, if_neg hname, Nat.add_zero]

end Tally

/-! ## Rounds -/

/-- The classes that each rule joins when the rules are applied, for the rules that have matches,
up to the one that makes the graph larger than `nodeLimit`. -/
def EGraph.applyCounts (nodeLimit : Nat) :
    List (Rule × List Match) → Update (List (Rule × Nat))
  | [] => return []
  | (r, ms) :: rest => do
    if ms.isEmpty then applyCounts nodeLimit rest
    else
      let joined ← r.applyAll ms
      if (← get).numNodes > nodeLimit then return [(r, joined)]
      else
        let counts ← applyCounts nodeLimit rest
        return (r, joined) :: counts

/-- Counts of rules entered by name. -/
def Tally.enter (t : Tally) (counts : List (Rule × Nat)) : Tally :=
  counts.foldl (fun t c => if c.2 = 0 then t else t.count c.1.name c.2) t

variable {nodeLimit index : Nat} {found : List (Rule × List Match)} {g g' : EGraph}
  {rules : List Rule} {it : Iteration}

/-- The rules are applied to what was found, and what each of them joined is entered by its name. -/
theorem applyFound_ok {applied applied' : Tally}
    (h : applyFound nodeLimit found applied g = .ok applied' g') :
    ∃ counts, applyCounts nodeLimit found g = .ok counts g' ∧ applied' = applied.enter counts ∧
      (counts.map Prod.fst).Sublist (found.map Prod.fst) := by
  induction found generalizing applied g with
  | nil =>
    cases h
    exact ⟨[], rfl, rfl, .slnil⟩
  | cons f rest ih =>
    obtain ⟨r, ms⟩ := f
    cases hms : ms.isEmpty with
    | true =>
      rw [applyFound, hms] at h
      obtain ⟨counts, hcounts, happlied, hsub⟩ := ih h
      exact ⟨counts, by rw [applyCounts, hms]; exact hcounts, happlied, hsub.cons _⟩
    | false =>
      rw [applyFound_cons _ _ _ _ _ hms] at h
      obtain ⟨joined, g₁, hjoined, h⟩ := bind_eq_ok h
      change (if g₁.numNodes > nodeLimit then return _
        else applyFound nodeLimit rest _ : Update Tally) g₁ = _ at h
      have hfirst : applyCounts nodeLimit ((r, ms) :: rest) g =
          (if g₁.numNodes > nodeLimit then return [(r, joined)]
            else applyCounts nodeLimit rest >>= fun counts => return (r, joined) :: counts :
            Update (List (Rule × Nat))) g₁ := by
        rw [applyCounts, hms]
        exact bind_ok hjoined
      by_cases hlarge : g₁.numNodes > nodeLimit
      · rw [if_pos hlarge] at h hfirst
        cases h
        exact ⟨[(r, joined)], hfirst, rfl, (List.nil_sublist _).cons_cons _⟩
      · rw [if_neg hlarge] at h hfirst
        obtain ⟨counts, hcounts, happlied, hsub⟩ := ih h
        exact ⟨(r, joined) :: counts, hfirst.trans (bind_ok hcounts), happlied, hsub.cons_cons _⟩

/-- A round reports of every rule by itself: how many matches it has, and how many classes it has
joined. -/
structure Iteration.KeepsApart (rules : List Rule) (nodeLimit : Nat) (g : EGraph)
    (it : Iteration) : Prop where
  found : it.found = (rules.filter fun r => (r.search g).length ≠ 0).map fun r =>
    (r.name, (r.search g).length)
  applied : ∃ counts g', applyCounts nodeLimit (rules.map fun r => (r, r.search g)) g =
      .ok counts g' ∧ (counts.map Prod.fst).Sublist rules ∧
    it.applied = (counts.filter (·.2 ≠ 0)).map fun c => (c.1.name, c.2)

theorem tallyFound_of_nodup (h : (rules.map (·.name)).Nodup) (g : EGraph) :
    tallyFound (rules.map fun r => (r, r.search g)) =
      (rules.filter fun r => (r.search g).length ≠ 0).map fun r =>
        (r.name, (r.search g).length) := by
  have hempty : ∀ ms : List Match, (ms.isEmpty = true) = (ms.length = 0) := fun ms => by simp
  rw [tallyFound, List.foldl_map]
  simp only [hempty]
  exact Tally.foldl_update (t := []) (fun r : Rule => r.name) (fun r => (r.search g).length)
    (fun _ => rfl) h

theorem enter_of_nodup {counts : List (Rule × Nat)} (h : (counts.map (·.1.name)).Nodup) :
    Tally.enter [] counts = (counts.filter (·.2 ≠ 0)).map fun c => (c.1.name, c.2) :=
  Tally.foldl_update (t := []) (fun c : Rule × Nat => c.1.name) (fun c => c.2)
    (fun c => Nat.zero_add c.2) h

theorem nodup_names_of_sublist {counts : List (Rule × Nat)}
    (h : (counts.map Prod.fst).Sublist rules) (hnames : (rules.map (·.name)).Nodup) :
    (counts.map (·.1.name)).Nodup := by
  have hsub := h.map (·.name)
  rw [List.map_map] at hsub
  exact hnames.sublist hsub

theorem keepsApart_of_saturateOnce (hnames : (rules.map (·.name)).Nodup)
    (h : saturateOnce rules nodeLimit index g = .ok it g') : it.KeepsApart rules nodeLimit g := by
  rw [saturateOnce_eq] at h
  obtain ⟨applied, g₁, happ, h⟩ := bind_eq_ok h
  obtain ⟨unions, g₂, -, h⟩ := bind_eq_ok h
  cases h
  obtain ⟨counts, hcounts, rfl, hsub⟩ := applyFound_ok happ
  rw [List.map_map, show Prod.fst ∘ (fun r : Rule => (r, r.search g)) = id from rfl,
    List.map_id] at hsub
  exact ⟨tallyFound_of_nodup hnames g, counts, g₁, hcounts, hsub,
    enter_of_nodup (nodup_names_of_sublist hsub hnames)⟩

theorem Iteration.KeepsApart.nodup_applied (h : it.KeepsApart rules nodeLimit g)
    (hnames : (rules.map (·.name)).Nodup) : (it.applied.map Prod.fst).Nodup := by
  obtain ⟨counts, -, -, hsub, happlied⟩ := h.applied
  rw [happlied, List.map_map]
  exact (nodup_names_of_sublist hsub hnames).sublist (List.filter_sublist.map _)

/-! ## Runs -/

/-- A report speaks of every rule by itself: in every round, and where the rounds are added up. -/
structure Report.KeepsApart (rules : List Rule) (limits : Limits) (analysis : Analysis)
    (report : Report) : Prop where
  rounds : ∀ it ∈ report.iterations, ∃ r g, Runner.Underway rules limits analysis r ∧
    saturateOnce rules limits.nodes r.report.iterations.size r.egraph = .ok it g ∧
    it.KeepsApart rules limits.nodes r.egraph
  ruleCounts : ∀ name, report.ruleCounts.number name =
    (report.iterations.toList.map (·.applied.number name)).sum

theorem number_ruleCounts (report : Report) (name : String)
    (h : ∀ it ∈ report.iterations, (it.applied.map Prod.fst).Nodup) :
    report.ruleCounts.number name =
      (report.iterations.toList.map (·.applied.number name)).sum := by
  have hfold : ∀ (its : List Iteration) (t : Tally), (∀ it ∈ its, (it.applied.map Prod.fst).Nodup) →
      (its.foldl (fun t it => it.applied.foldl (fun t (key, n) => t.count key n) t) t).number name =
        t.number name + (its.map (·.applied.number name)).sum := by
    intro its
    induction its with
    | nil => exact fun t _ => rfl
    | cons it its ih =>
      intro t hits
      obtain ⟨hit, hrest⟩ := List.forall_mem_cons.1 hits
      rw [List.foldl_cons, ih _ hrest, Tally.number_foldl_count hit, List.map_cons, List.sum_cons,
        Nat.add_assoc]
  rw [Report.ruleCounts, ← Array.foldl_toList,
    hfold _ [] fun it hit => h it (Array.mem_toList_iff.1 hit)]
  exact Nat.zero_add _

namespace Runner

variable {limits : Limits} {analysis : Analysis} {r r' : Runner} {reason : StopReason}

/-- The rounds of the report were done by runners of the same rules. -/
def Traced (rules : List Rule) (limits : Limits) (analysis : Analysis) (r : Runner) : Prop :=
  ∀ it ∈ r.report.iterations, ∃ r₀ g, Underway rules limits analysis r₀ ∧
    saturateOnce rules limits.nodes r₀.report.iterations.size r₀.egraph = .ok it g

theorem Traced.round (ht : Traced rules limits analysis r) (h : Underway rules limits analysis r)
    (hrun : saturateOnce r.rules r.limits.nodes r.report.iterations.size r.egraph = .ok it g) :
    Traced rules limits analysis { r with
      egraph := g
      report := { r.report with iterations := r.report.iterations.push it } } := by
  intro it' hit
  rcases Array.mem_push.1 hit with hit | rfl
  · exact ht it' hit
  · rw [h.ready.rules_eq, h.ready.limits_eq] at hrun
    exact ⟨r, g, h, hrun⟩

theorem Traced.runWithin (ht : Traced rules limits analysis r)
    (h : Underway rules limits analysis r) {n : Nat}
    (hrun : Runner.runWithin n r = .ok reason r') : Traced rules limits analysis r' := by
  induction n generalizing r with
  | zero =>
    cases hrun
    exact ht
  | succ n ih =>
    rw [runWithin_succ] at hrun
    split at hrun
    · cases hrun
      exact ht
    · cases hsat : saturateOnce r.rules r.limits.nodes r.report.iterations.size r.egraph with
      | error e g =>
        rw [hsat] at hrun
        cases hrun
      | ok it g =>
        have hround := ht.round h hsat
        rw [hsat] at hrun
        dsimp only at hrun
        split at hrun
        · cases hrun
          exact hround
        · exact ih hround (.round h hsat) hrun

theorem Underway.traced (h : Underway rules limits analysis r) :
    Traced rules limits analysis r := by
  induction h with
  | make => exact fun it hit => absurd hit (Array.not_mem_empty it)
  | @seed r r' id _ t hrun ih =>
    have hreport := report_seed t r
    rw [after, hrun] at hreport
    rw [Traced, hreport]
    exact ih
  | round h hrun ih => exact ih.round h hrun
  | run h hrun ih =>
    rw [run_eq] at hrun
    obtain ⟨reason₁, r₁, hwithin, hrun⟩ := bind_eq_ok hrun
    cases hrun
    have hr₁ := ih.runWithin h hwithin
    exact hr₁

/-- **Reports of rules with different names** give each of them its own counts. -/
theorem Underway.keepsApart (h : Underway rules limits analysis r)
    (hnames : (rules.map (·.name)).Nodup) : r.report.KeepsApart rules limits analysis := by
  have hrounds : ∀ it ∈ r.report.iterations, ∃ r₀ g, Underway rules limits analysis r₀ ∧
      saturateOnce rules limits.nodes r₀.report.iterations.size r₀.egraph = .ok it g ∧
      it.KeepsApart rules limits.nodes r₀.egraph := by
    intro it hit
    obtain ⟨r₀, g, hr₀, hround⟩ := h.traced it hit
    exact ⟨r₀, g, hr₀, hround, keepsApart_of_saturateOnce hnames hround⟩
  refine ⟨hrounds, fun name => number_ruleCounts r.report name fun it hit => ?_⟩
  obtain ⟨_, _, _, _, hkeeps⟩ := hrounds it hit
  exact hkeeps.nodup_applied hnames

end Runner

end EqSat
