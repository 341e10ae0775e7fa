import EqSat.Proofs.Remembered
import EqSat.Rule.Default

/-!
# Saturated graphs

A round is marked by three counters.  They cannot cancel out: every new id and every join counts
for ever, and together they determine the number of classes.  So a round that is marked has added
nothing and joined nothing, and then each of its steps has left the graph as it was: what a match
asks for is in the graph already.

    Arrives.back           a sequence of steps that comes back has changed nothing
    eq_of_unchanged        a round that leaves classes and nodes as they are is no change at all
    Underway.saturation    marked rounds change nothing, and saturated graphs are closed
-/

namespace EqSat

open EGraph

variable {analysis : Analysis} {g g' g₁ : EGraph} {o : Origin Unit} {rules : List Rule}
  {limits : Limits} {rule : Rule} {m : Match} {ms : List Match} {nodeLimit : Nat}

/-! ## Graphs of runs -/

/-- Reachable without a rebuild that failed, so that the graph is in order whatever nodes mean. -/
def Steady (analysis : Analysis) (g : EGraph) : Prop :=
  Reached analysis g ∧ ∃ o, Valid (anyMeaning analysis) g o

theorem lasting_steady (analysis : Analysis) : Lasting analysis (Steady analysis) where
  reached := And.left
  add := by
    rintro g n ⟨hr, o, hv⟩ hn
    obtain ⟨hr', o', hv', -⟩ := (lasting_carries analysis g o).add n ⟨hr, o, hv, .refl⟩ hn
    exact ⟨hr', o', hv'⟩
  union := by
    rintro g a b ⟨hr, o, hv⟩ ha hb
    obtain ⟨hr', o', hv', -⟩ := (lasting_carries analysis g o).union a b ⟨hr, o, hv, .refl⟩ ha hb
    exact ⟨hr', o', hv'⟩

theorem steady_empty (analysis : Analysis) : Steady analysis (empty analysis) :=
  ⟨.empty, ⟨fun _ => .leaf default, fun _ => ()⟩, valid_empty (anyMeaning analysis) _⟩

/-- A rebuild that succeeds leaves a clean graph. -/
theorem Steady.rebuild (h : Steady analysis g) {unions : Nat}
    (hrun : EGraph.rebuild g = .ok unions g') : Steady analysis g' ∧ g'.clean = true := by
  obtain ⟨hr, o, hv⟩ := h
  obtain ⟨o', hv', htidy, -⟩ := rebuild_ok hv (fun _ => True) hrun
  have hreached := hr.rebuild
  rw [hrun] at hreached
  exact ⟨⟨hreached, o', hv'⟩, htidy.clean⟩

theorem Steady.fits (h : Steady analysis g) (hm : m ∈ rule.search g) : Match.Fits g rule m :=
  h.1.backed.toGrounded.fits hm

/-! ## Steps that come back -/

/-- Two steps that come back to where they started have changed nothing, neither of them. -/
theorem Arrives.back {α β : Type} {P : EGraph → Prop} {Q : α → EGraph → Prop}
    {R : α → β → EGraph → Prop} {s : Update α} {f : α → Update β} {b : β}
    (hs : Arrives P Q g (s g))
    (hf : ∀ a g', P g' → g.size ≤ g'.size → Q a g' → Arrives P (R a) g' (f a g'))
    (hrun : (s >>= f) g = .ok b g) :
    ∃ a, s g = .ok a g ∧ Q a g ∧ f a g = .ok b g ∧ R a b g := by
  obtain ⟨a, g', hfirst, hrest⟩ := bind_eq_ok hrun
  rw [hfirst] at hs ⊢
  have hnext := hf a g' hs.1 hs.2.1 hs.2.2.2
  rw [hrest] at hnext
  obtain rfl := hs.stirred.antisymm hnext.stirred
  exact ⟨a, rfl, hs.2.2.2, hrest, hnext.2.2.2⟩

/-- The guard refuses the match, or what the rule makes of it is in the class of the match, and
making it adds nothing. -/
def Rule.Spent (rule : Rule) (g : EGraph) (m : Match) : Prop :=
  rule.guard.all (·.passes g m.2) = false ∨ rule.rhs.build m.2 g = .ok (g.find m.1) g

theorem spent_of_applyMatch (h : Steady analysis g) (hm : Match.Fits g rule m) {changed : Bool}
    (hrun : rule.applyMatch m g = .ok changed g) : rule.Spent g m := by
  have hP := lasting_steady analysis
  rw [Rule.applyMatch_eq] at hrun
  split at hrun
  · refine .inr ?_
    have hbuilds := hP.arrives_build rule.rhs h fun x hx => hm.binds x (rule.rhs_bound x hx)
    have hjoins : ∀ b g', Steady analysis g' → g.size ≤ g'.size → g'.Current b →
        Arrives (Steady analysis) (fun _ g'' => g''.find m.1 = g''.find b) g' (union m.1 b g') :=
      fun b g' h' hle hb => hP.arrives_union h' (Nat.lt_of_lt_of_le hm.lt hle) hb.1
    obtain ⟨b, hbuild, hcurrent, -, hfind⟩ := hbuilds.back hjoins hrun
    rw [hbuild, hfind, hcurrent.2]
  · next hguard => exact .inl (Bool.not_eq_true _ ▸ hguard)

theorem spent_of_applyFrom (h : Steady analysis g) (hms : ∀ m ∈ ms, Match.Fits g rule m)
    {joined joined' : Nat} (hrun : rule.applyFrom ms joined g = .ok joined' g) :
    ∀ m ∈ ms, rule.Spent g m := by
  have hP := lasting_steady analysis
  induction ms generalizing joined with
  | nil => exact fun m hm => by cases hm
  | cons m ms ih =>
    have hrest : ∀ m' ∈ ms, Match.Fits g rule m' := fun m' hm' => hms m' (List.mem_cons_of_mem _ hm')
    have hm := hms m List.mem_cons_self
    obtain ⟨changed, hfirst, -, hlater, -⟩ := (hP.arrives_applyMatch h hm).back
      (fun _ g' h' hle _ => hP.arrives_applyFrom ms _ h' fun m' hm' => (hrest m' hm').mono hle) hrun
    intro m' hm'
    rcases List.mem_cons.1 hm' with rfl | hm'
    · exact spent_of_applyMatch h hm hfirst
    · exact ih hrest hlater m' hm'

/-! ## Rounds -/

/-- All matches name classes of the graph. -/
def AllFit (g : EGraph) (found : List (Rule × List Match)) : Prop :=
  ∀ f ∈ found, ∀ m ∈ f.2, Match.Fits g f.1 m

theorem AllFit.mono {found : List (Rule × List Match)} (h : AllFit g found)
    (hle : g.size ≤ g'.size) : AllFit g' found := fun f hf m hm => (h f hf m hm).mono hle

theorem applyFound_cons (nodeLimit : Nat) (rule : Rule) (ms : List Match)
    (rest : List (Rule × List Match)) (applied : Tally) (hms : ms.isEmpty = false) :
    applyFound nodeLimit ((rule, ms) :: rest) applied = (do
      let joined ← rule.applyAll ms
      let applied := if joined = 0 then applied else applied.count rule.name joined
      if (← get).numNodes > nodeLimit then return applied
      else applyFound nodeLimit rest applied) := by
  rw [applyFound, hms]
  rfl

theorem Lasting.arrives_applyFound {P : EGraph → Prop} (hP : Lasting analysis P)
    (nodeLimit : Nat) (found : List (Rule × List Match)) (applied : Tally) {g : EGraph} (h : P g)
    (hfound : AllFit g found) :
    Arrives P (fun _ _ => True) g (applyFound nodeLimit found applied g) := by
  induction found generalizing applied g with
  | nil => exact .pure h trivial
  | cons f rest ih =>
    obtain ⟨rule, ms⟩ := f
    have hms := hfound _ List.mem_cons_self
    have hrest : AllFit g rest := fun f hf => hfound f (List.mem_cons_of_mem _ hf)
    cases hempty : ms.isEmpty with
    | true =>
      rw [applyFound, hempty]
      exact ih applied h hrest
    | false =>
      rw [applyFound_cons _ _ _ _ _ hempty]
      refine (hP.arrives_applyFrom ms 0 h hms).bind fun joined g' _ h' hle _ => ?_
      show Arrives P _ g' ((if g'.numNodes > nodeLimit then return _
        else applyFound nodeLimit rest _ : Update Tally) g')
      split
      · exact .pure h' trivial
      · exact ih _ h' (hrest.mono hle)

theorem spent_of_applyFound (h : Steady analysis g) (hsmall : ¬g.numNodes > nodeLimit)
    {found : List (Rule × List Match)} (hfound : AllFit g found) {applied applied' : Tally}
    (hrun : applyFound nodeLimit found applied g = .ok applied' g) :
    ∀ f ∈ found, ∀ m ∈ f.2, f.1.Spent g m := by
  have hP := lasting_steady analysis
  induction found generalizing applied with
  | nil => exact fun f hf => by cases hf
  | cons f rest ih =>
    obtain ⟨rule, ms⟩ := f
    have hms := hfound _ List.mem_cons_self
    have hrest : AllFit g rest := fun f hf => hfound f (List.mem_cons_of_mem _ hf)
    cases hempty : ms.isEmpty with
    | true =>
      rw [applyFound, hempty] at hrun
      intro f hf m hm
      rcases List.mem_cons.1 hf with rfl | hf
      · rw [List.isEmpty_iff.1 hempty] at hm
        cases hm
      · exact ih hrest hrun f hf m hm
    | false =>
      rw [applyFound_cons _ _ _ _ _ hempty] at hrun
      obtain ⟨joined, hfirst, -, hlater, -⟩ := (hP.arrives_applyFrom ms 0 h hms).back
        (R := fun _ _ _ => True) (fun joined g' h' hle _ => by
          show Arrives _ _ g' ((if g'.numNodes > nodeLimit then return _
            else applyFound nodeLimit rest _ : Update Tally) g')
          split
          · exact .pure h' trivial
          · exact hP.arrives_applyFound nodeLimit rest _ h' (hrest.mono hle)) hrun
      -- the graph is as small as before, so the loop goes on
      have hgoes : applyFound nodeLimit rest
          (if joined = 0 then applied else applied.count rule.name joined) g = .ok applied' g := by
        rw [← hlater]
        show _ = (if g.numNodes > nodeLimit then return _
          else applyFound nodeLimit rest _ : Update Tally) g
        rw [if_neg hsmall]
      intro f hf m hm
      rcases List.mem_cons.1 hf with rfl | hf
      · exact spent_of_applyFrom h hms hfirst m hm
      · exact ih hrest hgoes f hf m hm

/-- All matches of the rules are spent. -/
def ClosedUnder (g : EGraph) (rules : List Rule) : Prop :=
  ∀ rule ∈ rules, ∀ m ∈ rule.search g, rule.Spent g m

/-- The same ids are equal, and the classes list the same nodes. -/
structure Unchanged (g g' : EGraph) : Prop where
  equivalent : ∀ a b, g'.equivalent a b = g.equivalent a b
  nodes : ∀ id n, n ∈ g'.nodesAt id ↔ n ∈ g.nodesAt id

/-- What a round makes of a clean graph. -/
structure Round (analysis : Analysis) (rules : List Rule) (nodeLimit : Nat) (g : EGraph)
    (it : Iteration) (g' : EGraph) : Prop where
  steady : Steady analysis g'
  clean : g'.clean = true
  size_le : g.size ≤ g'.size
  eq_of_le : g'.size + g'.unionCount ≤ g.size + g.unionCount → g' = g
  saturated_iff : it.saturated = true ↔ g' = g
  closed : g' = g → ¬g.numNodes > nodeLimit → ClosedUnder g rules

/-- What is found in a graph names its classes. -/
theorem EGraph.Grounded.allFit (h : g.Grounded) (rules : List Rule) :
    AllFit g (rules.map fun r => (r, r.search g)) := by
  intro f hf m hm
  obtain ⟨r, -, rfl⟩ := List.mem_map.1 hf
  exact h.fits hm

theorem round_spec (h : Steady analysis g) (hclean : g.clean = true) {index : Nat}
    {it : Iteration} (hrun : saturateOnce rules nodeLimit index g = .ok it g') :
    Round analysis rules nodeLimit g it g' := by
  obtain ⟨applied, g₁, unions, happ, hreb, hsat⟩ := saturateOnce_ok hrun
  have hfit := h.1.backed.toGrounded.allFit rules
  have harrives := (lasting_steady analysis).arrives_applyFound nodeLimit _ [] h hfit
  rw [happ] at harrives
  obtain ⟨h₁, hle₁, hstirred, -⟩ := harrives
  obtain ⟨h', hclean'⟩ := h₁.rebuild hreb
  -- a rebuild makes no ids and forgets no joins
  have hon : Onward g₁ g' := by
    rcases rebuild_coherent h₁.1.orderly.toCoherent with
      ⟨n, g₂, hok, hc, hon, -⟩ | ⟨e, g₂, herror, -⟩
    · rw [hok] at hreb
      cases hreb
      exact hon.toOnward.trans (onward_tidy hc.shape)
    · rw [herror] at hreb
      cases hreb
  have hstays : g'.size + g'.unionCount ≤ g.size + g.unionCount → g₁ = g ∧ g' = g := by
    intro hle
    have hsize := hon.size_le
    have hcount := hon.unionCount_le
    have hg₁ : g₁ = g := hstirred.resolve_right fun hlt => by omega
    rw [hg₁, h.1.orderly.rested.rebuild hclean] at hreb
    cases hreb
    exact ⟨hg₁, rfl⟩
  refine ⟨h', hclean', Nat.le_trans hle₁ hon.size_le, fun hle => (hstays hle).2, ?_, ?_⟩
  · rw [hsat]
    constructor
    · rintro ⟨hcount, -, hclasses⟩
      have hbalanced : g.size = g.numClasses + g.unionCount := h.1.orderly.balanced
      have hbalanced' : g'.size = g'.numClasses + g'.unionCount := h'.1.orderly.balanced
      exact (hstays (by omega)).2
    · rintro rfl
      exact ⟨rfl, rfl, rfl⟩
  · rintro rfl hsmall rule hrule m hm
    obtain ⟨rfl, -⟩ := hstays (Nat.le_refl _)
    exact spent_of_applyFound h hsmall hfit happ _
      (List.mem_map.2 ⟨rule, hrule, rfl⟩) m hm

/-! ## Unchanged graphs -/

theorem find_eq_iff_of_unchanged (h : Unchanged g g') {a b : ClassId} :
    g'.find a = g'.find b ↔ g.find a = g.find b := by
  have heq := h.equivalent a b
  simp only [equivalent] at heq
  rw [← beq_iff_eq, heq, beq_iff_eq]

/-- Every id has a class that lists nodes, so there are no new ids. -/
theorem size_le_of_unchanged (hs : g.Shape) (hg : g'.Grounded) (h : Unchanged g g') :
    g'.size ≤ g.size := by
  by_contra hlt
  obtain ⟨t, ht⟩ := hg.tree g.size (Nat.lt_of_not_le hlt)
  obtain ⟨q, -, hq, -⟩ := represents_iff.1 ht
  rw [h.nodes, nodesAt_of_size_le hs (Nat.le_refl _)] at hq
  cases hq

/-- The classes have other roots at most. -/
theorem numClasses_le_of_unchanged (hs : g.Shape) (hs' : g'.Shape) (h : Unchanged g g')
    (hle : g.size ≤ g'.size) : g.numClasses ≤ g'.numClasses := by
  rw [← card_roots hs, ← card_roots hs']
  refine Finset.card_le_card_of_injOn g'.find (fun a ha => ?_) fun a ha b hb hab => ?_
  · obtain ⟨hlt, -⟩ := (mem_roots hs).1 ha
    exact (mem_roots hs').2 ⟨find_lt hs' (Nat.lt_of_lt_of_le hlt hle), find_find hs' a⟩
  · have hfind := (find_eq_iff_of_unchanged h).1 hab
    rwa [((mem_roots hs).1 ha).2, ((mem_roots hs).1 hb).2] at hfind

/-- A round that leaves classes and nodes as they are is no change at all. -/
theorem Round.eq_of_unchanged {it : Iteration} (hr : Round analysis rules nodeLimit g it g')
    (h : Steady analysis g) (hu : Unchanged g g') : g' = g := by
  have hs := h.1.backed.shape
  have hs' := hr.steady.1.backed.shape
  have hsize := size_le_of_unchanged hs hr.steady.1.backed.toGrounded hu
  have hclasses := numClasses_le_of_unchanged hs hs' hu hr.size_le
  have hbalanced : g.size = g.numClasses + g.unionCount := h.1.orderly.balanced
  have hbalanced' : g'.size = g'.numClasses + g'.unionCount := hr.steady.1.orderly.balanced
  exact hr.eq_of_le (by omega)

/-! ## Runners -/

namespace Runner

variable {r r' : Runner} {reason : StopReason}

/-- A runner that has been seeded and run, in any order and without a conflict so far.  It may be
between two rounds of a run. -/
inductive Underway (rules : List Rule) (limits : Limits) (analysis : Analysis) : Runner → Prop where
  | make : Underway rules limits analysis (make rules limits analysis)
  | seed {r r' : Runner} {id : Option ClassId} (h : Underway rules limits analysis r) (t : Term)
    (hrun : seed t r = .ok id r') : Underway rules limits analysis r'
  | round {r : Runner} {it : Iteration} {g : EGraph} (h : Underway rules limits analysis r)
    (hrun : saturateOnce r.rules r.limits.nodes r.report.iterations.size r.egraph = .ok it g) :
    Underway rules limits analysis { r with
      egraph := g
      report := { r.report with iterations := r.report.iterations.push it } }
  | run {r r' : Runner} {reason : StopReason} (h : Underway rules limits analysis r)
    (hrun : run r = .ok reason r') : Underway rules limits analysis r'

/-- A runner of these rules and limits, with a graph that is ready for a round. -/
structure Ready (rules : List Rule) (limits : Limits) (analysis : Analysis) (r : Runner) :
    Prop where
  rules_eq : r.rules = rules
  limits_eq : r.limits = limits
  steady : Steady analysis r.egraph
  clean : r.egraph.clean = true

theorem ready_make (rules : List Rule) (limits : Limits) (analysis : Analysis) :
    Ready rules limits analysis (make rules limits analysis) :=
  ⟨rfl, rfl, steady_empty analysis, rfl⟩

/-- A term without nodes changes nothing. -/
theorem seed_of_isEmpty {t : Term} (ht : t.isEmpty = true) (r : Runner) :
    Runner.seed t r = .ok none r := by
  have hnodes : t.nodes = #[] := Array.size_eq_zero_iff.1 (eq_of_beq ht)
  have hadd : addTerm t r.egraph = .ok none r.egraph := by
    rw [addTerm, hnodes]
    rfl
  exact bind_ok (onGraph_ok hadd)

/-- Without nodes there is nothing to saturate. -/
theorem saturate_of_isEmpty (rules : List Rule) (limits : Limits) {t : Term}
    (ht : t.isEmpty = true) : EqSat.saturate rules limits t =
      (.error (.noTerm .nothingToAdd), make rules limits .constantFolding) := by
  have hsat : Runner.saturate t (make rules limits .constantFolding) =
      .ok none (make rules limits .constantFolding) := bind_ok (seed_of_isEmpty ht _)
  rw [EqSat.saturate, hsat]

theorem Ready.seed (h : Ready rules limits analysis r) {t : Term} {id : Option ClassId}
    (hrun : Runner.seed t r = .ok id r') : Ready rules limits analysis r' := by
  cases ht : t.isEmpty with
  | true =>
    rw [seed_of_isEmpty ht] at hrun
    cases hrun
    exact h
  | false =>
    have hadds := (lasting_steady analysis).arrives_addTerm h.steady t
    obtain ⟨-, o, hv⟩ := h.steady
    obtain ⟨ids, g₁, o₁, hadd, -⟩ := addTerm_standing hv ht
    rw [hadd] at hadds
    cases hreb : rebuild g₁ with
    | ok unions g₂ =>
      rw [seed_ok hadd hreb] at hrun
      cases hrun
      obtain ⟨hsteady, hclean⟩ := hadds.1.rebuild hreb
      exact ⟨h.rules_eq, h.limits_eq, hsteady, hclean⟩
    | error e g₂ =>
      rw [seed_error hadd hreb] at hrun
      cases hrun

theorem Ready.round (h : Ready rules limits analysis r) {it : Iteration}
    (hrun : saturateOnce r.rules r.limits.nodes r.report.iterations.size r.egraph = .ok it g) :
    Ready rules limits analysis { r with
      egraph := g
      report := { r.report with iterations := r.report.iterations.push it } } :=
  have hround := round_spec h.steady h.clean hrun
  ⟨h.rules_eq, h.limits_eq, hround.steady, hround.clean⟩

/-- **Rounds** leave the runner ready; where they end in saturation, the graph is closed. -/
theorem Ready.runWithin (h : Ready rules limits analysis r) {n : Nat}
    (hrun : Runner.runWithin n r = .ok reason r') : Ready rules limits analysis r' ∧
      (reason = .saturated → ClosedUnder r'.egraph rules) := by
  induction n generalizing r with
  | zero =>
    cases hrun
    exact ⟨h, fun hreason => by cases hreason⟩
  | succ n ih =>
    rw [runWithin_succ] at hrun
    split at hrun
    · cases hrun
      exact ⟨h, fun hreason => by cases hreason⟩
    · next hsmall =>
      cases hsat : saturateOnce r.rules r.limits.nodes r.report.iterations.size r.egraph with
      | error e g =>
        rw [hsat] at hrun
        cases hrun
      | ok it g =>
        have hready := h.round hsat
        have hround := round_spec h.steady h.clean hsat
        rw [hsat] at hrun
        dsimp only at hrun
        split at hrun
        · next hstop =>
          cases hrun
          refine ⟨hready, fun _ => ?_⟩
          have hg := hround.saturated_iff.1 hstop
          have hclosed := hround.closed hg hsmall
          rw [h.rules_eq] at hclosed
          rwa [hg]
        · exact ih hready hrun

theorem Ready.run (h : Ready rules limits analysis r) (hrun : Runner.run r = .ok reason r') :
    Ready rules limits analysis r' ∧ (reason = .saturated → ClosedUnder r'.egraph rules) := by
  rw [run_eq] at hrun
  obtain ⟨reason₁, r₁, hwithin, hrun⟩ := bind_eq_ok hrun
  cases hrun
  obtain ⟨hready, hclosed⟩ := h.runWithin hwithin
  exact ⟨⟨hready.rules_eq, hready.limits_eq, hready.steady, hready.clean⟩, hclosed⟩

theorem Underway.ready (h : Underway rules limits analysis r) : Ready rules limits analysis r := by
  induction h with
  | make => exact ready_make rules limits analysis
  | seed _ t hrun ih => exact ih.seed hrun
  | round _ hrun ih => exact ih.round hrun
  | run _ hrun ih => exact (ih.run hrun).1

/-- **Saturation.**  A round is marked when, and only when, it leaves all classes and their nodes as
they are.  When a run ends in saturation, its graph is closed under the rules. -/
theorem Underway.saturation (h : Underway rules limits analysis r) :
    (∀ it g, saturateOnce r.rules r.limits.nodes r.report.iterations.size r.egraph = .ok it g →
      (it.saturated = true ↔ Unchanged r.egraph g)) ∧
    ∀ r', Runner.run r = .ok .saturated r' → ClosedUnder r'.egraph rules := by
  refine ⟨fun it g hrun => ?_, fun r' hrun => (h.ready.run hrun).2 rfl⟩
  have hround := round_spec h.ready.steady h.ready.clean hrun
  rw [hround.saturated_iff]
  constructor
  · rintro rfl
    exact ⟨fun _ _ => rfl, fun _ _ => Iff.rfl⟩
  · exact hround.eq_of_unchanged h.ready.steady

/-- A sum in which zero is divided by zero. -/
def quotientTerm : Term :=
  .ofTree (.binary .add (.leaf (.var "x"))
    (.binary .div (.leaf (.const (.int 0))) (.leaf (.const (.int 0)))))

/-- The sum in a runner with the built-in rules of arithmetic. -/
def quotientSum : Runner :=
  after (Runner.seed quotientTerm) (.make (Rule.defaultsIn (some ["arithmetic"])) .default
    .constantFolding)

/-- The first round adds the sum with its operands exchanged.  The second one changes nothing: the
two sums are in one class, and the guard refuses to cancel the quotient. -/
theorem saturation_quotientSum :
    Underway (Rule.defaultsIn (some ["arithmetic"])) .default .constantFolding quotientSum ∧
      (∃ it g, saturateOnce quotientSum.rules quotientSum.limits.nodes
        quotientSum.report.iterations.size quotientSum.egraph = .ok it g ∧
        it.found = [("commute-add", 1), ("div-reflexive", 1)] ∧
        ¬Unchanged quotientSum.egraph g) ∧
      ∃ r, Runner.run quotientSum = .ok .saturated r ∧
        r.report.iterations.toList.map (·.saturated) = [false, true] ∧
        ClosedUnder r.egraph (Rule.defaultsIn (some ["arithmetic"])) := by
  have h : Underway (Rule.defaultsIn (some ["arithmetic"])) .default .constantFolding
      quotientSum := by
    have hok : (success? (Runner.seed quotientTerm (.make (Rule.defaultsIn (some ["arithmetic"]))
        .default .constantFolding))).isSome = true := by decide +kernel
    obtain ⟨⟨id, r⟩, hr⟩ := Option.isSome_iff_exists.1 hok
    have hseed := eq_ok_of_success? hr
    rw [quotientSum, after, hseed]
    exact Underway.make.seed _ hseed
  obtain ⟨hrounds, hruns⟩ := h.saturation
  refine ⟨h, ?_, ?_⟩
  · have hround : (success? (saturateOnce quotientSum.rules quotientSum.limits.nodes
        quotientSum.report.iterations.size quotientSum.egraph)).map
          (fun p => (p.1.saturated, p.1.found)) =
        some (false, [("commute-add", 1), ("div-reflexive", 1)]) := by decide +kernel
    obtain ⟨⟨it, g⟩, hr, hit⟩ := Option.map_eq_some_iff.1 hround
    have hsat := eq_ok_of_success? hr
    simp only [Prod.mk.injEq] at hit
    refine ⟨it, g, hsat, hit.2, fun hu => ?_⟩
    rw [← hrounds it g hsat, hit.1] at hu
    cases hu
  · have hrun : (success? (Runner.run quotientSum)).map
        (fun p => (p.1, p.2.report.iterations.toList.map (·.saturated))) =
        some (StopReason.saturated, [false, true]) := by decide +kernel
    obtain ⟨⟨reason, r⟩, hr, hend⟩ := Option.map_eq_some_iff.1 hrun
    simp only [Prod.mk.injEq] at hend
    obtain ⟨rfl, hmarks⟩ := hend
    exact ⟨r, eq_ok_of_success? hr, hmarks, hruns r (eq_ok_of_success? hr)⟩

end Runner

end EqSat
