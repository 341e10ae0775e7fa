import EqSat.Proofs.Termination.Paths
import EqSat.Proofs.Termination.Run

/-!
# Termination

The bounds in the calls, the rebuilds and the runs never cut anything short: without them, all of
these end, in the same way.  What bounds a rebuild is that each usage it looks at takes a class away
or makes one known, or leaves the worklists shorter.  What bounds a run is the limit on its rounds.

    started_run              no more rounds are started than the limit allows
    Operated.terminates      every rebuild and every run ends
-/

namespace EqSat

open EGraph

variable {analysis : Analysis} {g : EGraph}

/-! ## The number of rounds -/

namespace Runner

variable {r r' : Runner} {rules : List Rule} {limits : Limits}

/-- A round that fails was one of those that the limit allows. -/
theorem size_lt_of_runWithin {n : Nat} {e : Conflict} (h : runWithin n r = .error e r') :
    r'.report.iterations.size < r.report.iterations.size + n := by
  induction n generalizing r with
  | zero => cases h
  | succ n ih =>
    rw [runWithin_succ] at h
    split at h
    · cases h
    · cases hsat : saturateOnce r.rules r.limits.nodes r.report.iterations.size r.egraph with
      | error e' g =>
        rw [hsat] at h
        cases h
        exact Nat.lt_add_of_pos_right (Nat.succ_pos n)
      | ok it g =>
        rw [hsat] at h
        dsimp only at h
        split at h
        · cases h
        · have hlt := ih h
          simp only [Array.size_push] at hlt
          omega

/-- A run that fails has not reached the limit. -/
theorem size_lt_of_run {e : Conflict} (h : run r = .error e r') :
    r'.report.iterations.size < r.limits.iterations := by
  rw [run_eq] at h
  cases hwithin : runWithin (r.limits.iterations - r.report.iterations.size) r with
  | ok reason r₁ =>
    rw [bind_ok hwithin] at h
    cases h
  | error e₁ r₁ =>
    rw [bind_error hwithin] at h
    cases h
    have hlt := size_lt_of_runWithin hwithin
    cases hn : r.limits.iterations - r.report.iterations.size with
    | zero =>
      rw [hn] at hwithin
      cases hwithin
    | succ n => omega

/-- Steps that leave the report alone, one after the other. -/
theorem report_bind {α β : Type} {x : RunM α} {f : α → RunM β} {r : Runner}
    (hx : (after x r).report = r.report) (hf : ∀ a r', (after (f a) r').report = r'.report) :
    (after (x >>= f) r).report = r.report := by
  rw [after_bind]
  rw [after] at hx
  cases hrun : x r with
  | ok a r' =>
    rw [hrun] at hx
    exact (hf a r').trans hx
  | error e r' =>
    rw [hrun] at hx
    exact hx

/-- Seeding does no rounds. -/
theorem report_seed (t : Term) (r : Runner) : (after (seed t) r).report = r.report := by
  refine report_bind (report_onGraph _ r) fun root r₁ => ?_
  cases root with
  | none => rfl
  | some id =>
    exact report_bind rfl fun _ r₂ => report_bind (report_onGraph _ r₂) fun _ _ => rfl

/-- The rounds that have been started; one that fails is not reported. -/
def started {α : Type} : EStateM.Result Conflict Runner α → Nat
  | .ok _ r => r.report.iterations.size
  | .error _ r => r.report.iterations.size + 1

/-- A run starts no more rounds than the limit allows. -/
theorem started_run (r : Runner) :
    started (run r) ≤ max r.report.iterations.size r.limits.iterations := by
  have hsize := size_run r
  rw [after] at hsize
  cases hrun : run r with
  | ok reason r' =>
    rw [hrun] at hsize
    exact hsize
  | error e r' => exact Nat.le_trans (size_lt_of_run hrun) (Nat.le_max_right _ _)

/-- A saturation starts no more rounds than the limit allows. -/
theorem started_saturate (rules : List Rule) (limits : Limits) (analysis : Analysis) (t : Term) :
    started (saturate t (make rules limits analysis)) ≤ limits.iterations := by
  have hreport := report_seed t (make rules limits analysis)
  rw [after] at hreport
  have hpos := limits.iterations_pos
  unfold saturate
  cases hseed : seed t (make rules limits analysis) with
  | error e r =>
    rw [hseed] at hreport
    dsimp only at hreport
    rw [bind_error hseed, started, hreport]
    exact hpos
  | ok root r =>
    rw [hseed] at hreport
    dsimp only at hreport
    rw [bind_ok hseed]
    cases root with
    | none =>
      show r.report.iterations.size ≤ _
      rw [hreport]
      exact Nat.zero_le _
    | some id =>
      have hstarted := started_run r
      rw [hreport, ((ready_make rules limits analysis).seed hseed).limits_eq] at hstarted
      refine Nat.le_trans ?_ (hstarted.trans (Nat.le_of_eq (Nat.zero_max _)))
      show started ((run >>= fun _ => do return some ((← get).egraph.find id)) r) ≤ _
      cases hrun : run r with
      | ok reason r' =>
        rw [bind_ok hrun]
        exact Nat.le_refl _
      | error e r' =>
        rw [bind_error hrun]
        exact Nat.le_refl _

end Runner

/-! ## Graphs and runners -/

/-- Everything that can be asked of the graph comes to an end, and a rebuild that succeeds leaves
the worklists empty. -/
structure EGraph.Terminates (g : EGraph) : Prop where
  find : ∀ id < g.size, ∃ links, (Open.call (.find id)).Ends g.links (.ok (g.find id) links) ∧
    ∀ i, links.root i = g.find i
  add : ∀ n, (∀ a ∈ n.children, a < g.size) → (Open.call (.add n)).Ends g (EGraph.add n g)
  union : ∀ a b, a < g.size → b < g.size →
    (Open.call (.union a b)).Ends g (EGraph.union a b g)
  rebuild : Open.rebuild.Ends g (EGraph.rebuild g)
  emptied : ∀ unions g', EGraph.rebuild g = .ok unions g' →
    g'.pending = [] ∧ g'.foldPending = []

/-- **All calls** on a reachable graph end. -/
theorem EGraph.Reached.terminating (h : Reached analysis g) : g.Terminates where
  find := by
    intro id hid
    obtain ⟨hfind, hroot, hroots⟩ := Open.find_ends h.backed.shape.forest hid
    rw [hroot] at hfind
    exact ⟨(g.links.find id).1, hfind, hroots⟩
  add := fun n hn => Open.add_ends h.orderly.toCoherent hn
  union := fun a b ha hb =>
    Open.union_ends h.orderly.toIndexed (h.orderly.recalled.upTo a b) ha hb
  rebuild := Open.rebuild_ends h.orderly.toCoherent
  emptied := by
    intro unions g' hrun
    rcases rebuild_coherent h.orderly.toCoherent with
      ⟨n, g₁, hok, -, -, hp, hf⟩ | ⟨e, g₁, herror, -⟩
    · rw [hok] at hrun
      cases hrun
      exact ⟨hp, hf⟩
    · rw [herror] at hrun
      cases hrun

/-- **Termination.**  On every graph that operations make, also where a conflict has cut them short,
all calls come to an end.  A rebuild empties both worklists, or two constants conflict.  So every
run ends, and starts no more rounds than the limit allows. -/
theorem Operated.terminates (h : Operated analysis g) : g.Terminates ∧
    (∀ r : Runner, r.egraph = g → Open.run.Ends r (Runner.run r) ∧
      Runner.started (Runner.run r) ≤ max r.report.iterations.size r.limits.iterations) ∧
    ∀ rules limits t, (Open.saturate t).Ends (.make rules limits analysis)
        (Runner.saturate t (.make rules limits analysis)) ∧
      Runner.started (Runner.saturate t (.make rules limits analysis)) ≤ limits.iterations := by
  refine ⟨h.reached.terminating, ?_, fun rules limits t => ?_⟩
  · rintro r rfl
    exact ⟨Open.run_ends h.reached, Runner.started_run r⟩
  · exact ⟨Open.saturate_ends rules limits analysis t,
      Runner.started_saturate rules limits analysis t⟩

/-- The sum of `x` and one. -/
def incrementTerm : Term := .ofTree (.binary .add (.leaf (.var "x")) (.leaf (.const (.int 1))))

/-- The sum, once `x` is said to be one. -/
def pendingSum : EGraph :=
  left ((Operation.union 0 1).run (left ((Operation.addTerm incrementTerm).run
    (empty .constantFolding))))

/-- A runner over the sum, with the built-in rules of arithmetic. -/
def pendingRunner : Runner :=
  { Runner.make (Rule.defaultsIn (some ["arithmetic"])) .default .constantFolding with
    egraph := pendingSum }

/-- The sum is due to be evaluated.  A rebuild finds that it is two.  A run does so in its first
round, and changes nothing in the second one. -/
theorem terminates_pendingSum : Operated .constantFolding pendingSum ∧
    pendingSum.foldPending.length = 1 ∧
    (∃ g, Open.rebuild.Ends pendingSum (.ok 0 g) ∧ g.constantAt? 2 = some (.int 2) ∧
      g.pending = [] ∧ g.foldPending = []) ∧
    ∃ r, Open.run.Ends pendingRunner (.ok .saturated r) ∧ r.report.iterations.size = 2 := by
  have hsum : Operated .constantFolding (left ((Operation.addTerm incrementTerm).run
      (empty .constantFolding))) := Operated.empty.step (.addTerm incrementTerm) trivial
  have h : Operated .constantFolding pendingSum :=
    hsum.step (.union 0 1) ⟨by decide +kernel, by decide +kernel⟩
  obtain ⟨hg, hruns, -⟩ := h.terminates
  refine ⟨h, by decide +kernel, ?_, ?_⟩
  · have hok : (success? (rebuild pendingSum)).map (fun p => (p.1, p.2.constantAt? 2)) =
        some (0, some (.int 2)) := by decide +kernel
    obtain ⟨⟨unions, g⟩, hsome, hfound⟩ := Option.map_eq_some_iff.1 hok
    have hrun := eq_ok_of_success? hsome
    simp only [Prod.mk.injEq] at hfound
    obtain ⟨rfl, hconst⟩ := hfound
    have hrebuild := hg.rebuild
    rw [hrun] at hrebuild
    exact ⟨g, hrebuild, hconst, hg.emptied _ g hrun⟩
  · obtain ⟨hends, -⟩ := hruns pendingRunner rfl
    have hok : (success? (Runner.run pendingRunner)).map
        (fun p => (p.1, p.2.report.iterations.size)) = some (StopReason.saturated, 2) := by
      decide +kernel
    obtain ⟨⟨reason, r⟩, hsome, hfound⟩ := Option.map_eq_some_iff.1 hok
    have hrun := eq_ok_of_success? hsome
    simp only [Prod.mk.injEq] at hfound
    obtain ⟨rfl, hsize⟩ := hfound
    rw [hrun] at hends
    exact ⟨r, hends, hsize⟩

end EqSat
