import EqSat.Proofs.Entering

/-!
# The order of the rules

The order in which rules are applied decides which ids are given, which class stays where two are
joined, and in which order nodes are listed.  It decides nothing else, as long as no size that is
checked is over the limit and no rule has a guard: after each round the graphs are copies of each
other.  A round takes copies to copies, since each of them has what the other one enters; and where
a constant conflicts with another in the one, there is no graph that the other could become.

    Copies.rounds     a round of copies
    Abreast.runWithin a run of copies, round by round
    saturate_perm     saturation with the rules in another order
-/

namespace EqSat

open EGraph

variable {g g' g₁ g₁' : EGraph} {f f' : ClassId → ClassId} {rules rules' : List Rule}
  {nodeLimit index index' : Nat} {it it' : Iteration} {limits : Limits} {t : Term}
  {root : ClassId}

/-! ## Rounds of copies -/

/-- Where a round succeeds in a copy, it does here, and the one graph embeds in the other.  Classes
of one name still have one. -/
theorem Copies.round (h : Copies f f' g g') (hsub : ∀ r ∈ rules, r ∈ rules')
    (hguards : ∀ r ∈ rules', r.guard = none)
    (hsizes : ∀ k ∈ roundSizes nodeLimit rules' g', k ≤ nodeLimit)
    (hrun : saturateOnce rules' nodeLimit index' g' = .ok it' g₁') (index : Nat) :
    ∃ it g₁ f₁, saturateOnce rules nodeLimit index g = .ok it g₁ ∧ InOrder g₁ ∧
      Embeds f₁ g₁ g₁' ∧
      ∀ i j, i < g.size → j < g'.size → f i = g'.find j → f₁ i = g₁'.find j := by
  obtain ⟨h₁', hthere, hpresent⟩ := round_present h.inOrder' hguards hsizes hrun
  have hcopied : ∀ r ∈ rules, ∀ m ∈ r.search g,
      r.rhs.Over (fun n c => g₁'.lookup n = some c) (fun x => (g₁'.find ∘ f) (m.2.get x))
        ((g₁'.find ∘ f) m.1) := by
    intro r hr m hm
    obtain ⟨m', hm', hid, hvars⟩ := h.search hm
    have hright := hpresent r (hsub r hr) m' hm'
    rw [hid] at hright
    exact (Pattern.over_congr fun x hx => congrArg g₁'.find (hvars x (r.rhs_bound x hx))).1 hright
  obtain ⟨it, g₁, f₁, hrun₁, h₁, hembeds, hsame⟩ :=
    round_least h.inOrder h₁' (h.there.trans hthere) hcopied nodeLimit index
  refine ⟨it, g₁, f₁, hrun₁, h₁, hembeds, fun i j hi hj hij => ?_⟩
  rw [hsame i hi, Function.comp_apply, hij, hthere.find j hj]

/-- **A round** of copies makes copies, or fails for both. -/
theorem Copies.rounds (h : Copies f f' g g') (hperm : ∀ r, r ∈ rules ↔ r ∈ rules')
    (hguards : ∀ r ∈ rules, r.guard = none)
    (hsizes : ∀ k ∈ roundSizes nodeLimit rules g, k ≤ nodeLimit)
    (hsizes' : ∀ k ∈ roundSizes nodeLimit rules' g', k ≤ nodeLimit) (index index' : Nat) :
    (∃ it g₁ it' g₁' f₁ f₁', saturateOnce rules nodeLimit index g = .ok it g₁ ∧
      saturateOnce rules' nodeLimit index' g' = .ok it' g₁' ∧ Copies f₁ f₁' g₁ g₁' ∧
      ∀ i j, i < g.size → j < g'.size → f i = g'.find j → f₁ i = g₁'.find j) ∨
    (∃ e g₁, saturateOnce rules nodeLimit index g = .error e g₁) ∧
      ∃ e g₁', saturateOnce rules' nodeLimit index' g' = .error e g₁' := by
  have hguards' : ∀ r ∈ rules', r.guard = none := fun r hr => hguards r ((hperm r).2 hr)
  cases hrun : saturateOnce rules nodeLimit index g with
  | ok it g₁ =>
    obtain ⟨it', g₁', f₁', hrun', h₁', hback, -⟩ :=
      h.symm.round (fun r hr => (hperm r).2 hr) hguards hsizes hrun index'
    obtain ⟨it₂, g₂, f₁, hrun₂, h₁, hthere, hroot⟩ :=
      h.round (fun r hr => (hperm r).1 hr) hguards' hsizes' hrun' index
    rw [hrun] at hrun₂
    cases hrun₂
    exact .inl ⟨it, g₁, it', g₁', f₁, f₁', rfl, hrun', ⟨h₁, h₁', hthere, hback⟩, hroot⟩
  | error e g₁ =>
    cases hrun' : saturateOnce rules' nodeLimit index' g' with
    | ok it' g₁' =>
      obtain ⟨it, g₂, -, hrun₂, -⟩ :=
        h.round (fun r hr => (hperm r).1 hr) hguards' hsizes' hrun' index
      rw [hrun] at hrun₂
      cases hrun₂
    | error e' g₁' => exact .inr ⟨⟨e, g₁, rfl⟩, e', g₁', rfl⟩

/-- A round without effect has none on a copy. -/
theorem Copies.round_of_eq (h : Copies f f' g g') (hperm : ∀ r, r ∈ rules ↔ r ∈ rules')
    (hguards : ∀ r ∈ rules, r.guard = none)
    (hsizes : ∀ k ∈ roundSizes nodeLimit rules g, k ≤ nodeLimit)
    (hrun : saturateOnce rules nodeLimit index g = .ok it g)
    (h' : Steady .constantFolding g') (hclean' : g'.clean = true) :
    ∃ it', saturateOnce rules' nodeLimit index' g' = .ok it' g' := by
  obtain ⟨-, -, hpresent⟩ := round_present h.inOrder hguards hsizes hrun
  refine saturateOnce_of_present h' hclean' (fun r hr => hguards r ((hperm r).2 hr))
    fun r hr m' hm' => ?_
  obtain ⟨m, hm, hid, hvars⟩ := h.symm.search hm'
  have hfits := h'.fits hm'
  -- a class of the copy comes back as it is called now
  have hback : ∀ a, a < g'.size → f (g.find (f' a)) = g'.find a := fun a ha => by
    rw [h.there.find _ (h.back.current h.inOrder' h.inOrder ha).1, h.symm.find_eq ha]
  have hright := Pattern.Over.map (f := f) (K := fun n c => g'.lookup n = some c)
    (fun n c hc => h.there.lookup n c hc) (hpresent r ((hperm r).2 hr) m hm)
  rw [hid, hback m'.1 hfits.lt] at hright
  refine (Pattern.over_congr fun x hx => ?_).1 hright
  have hx' := r.rhs_bound x hx
  obtain ⟨a, ha, hlt⟩ := hfits.binds x hx'
  show f (g.find (m.2.get x)) = g'.find (m'.2.get x)
  rw [hvars x hx', Subst.get_eq ha]
  exact hback a hlt

/-- The rounds of copies are marked alike. -/
theorem Copies.saturated (h : Copies f f' g g') (hperm : ∀ r, r ∈ rules ↔ r ∈ rules')
    (hguards : ∀ r ∈ rules, r.guard = none)
    (hsizes : ∀ k ∈ roundSizes nodeLimit rules g, k ≤ nodeLimit)
    (hround : Round .constantFolding rules nodeLimit g it g₁)
    (hrun : saturateOnce rules nodeLimit index g = .ok it g₁)
    (h' : Steady .constantFolding g') (hclean' : g'.clean = true)
    (hrun' : saturateOnce rules' nodeLimit index' g' = .ok it' g₁') (hsat : it.saturated = true) :
    it'.saturated = true := by
  obtain rfl := hround.saturated_iff.1 hsat
  obtain ⟨it₂, hrun₂⟩ := h.round_of_eq hperm hguards hsizes hrun h' hclean'
  rw [hrun'] at hrun₂
  cases hrun₂
  exact (round_spec h' hclean' hrun').saturated_iff.2 rfl

/-- What a round says about its graph. -/
theorem saturateOnce_sizes (h : saturateOnce rules nodeLimit index g = .ok it g₁) :
    (it.nodes, it.classes) = (g₁.numNodes, g₁.numClasses) := by
  rw [saturateOnce_eq] at h
  obtain ⟨applied, g₂, -, h⟩ := bind_eq_ok h
  obtain ⟨unions, g₃, -, h⟩ := bind_eq_ok h
  cases h
  rfl

/-! ## Runs -/

/-- How many nodes and classes there were after each round. -/
def Report.sizes (report : Report) : Array (Nat × Nat) :=
  report.iterations.map fun it => (it.nodes, it.classes)

namespace Runner

variable {r r' : Runner} {reason : StopReason} {n : Nat}

/-- The runner after a round. -/
def advance (r : Runner) (it : Iteration) (g : EGraph) : Runner :=
  { r with
    egraph := g
    report := { r.report with iterations := r.report.iterations.push it } }

theorem sizes_advance (r : Runner) (it : Iteration) (g : EGraph) :
    (r.advance it g).report.sizes = r.report.sizes.push (it.nodes, it.classes) := Array.map_push

/-- The sizes of the graph that are compared with the limit in at most so many rounds. -/
def checkedSizes : Nat → Runner → List Nat
  | 0, _ => []
  | rest + 1, r => r.egraph.numNodes ::
    if r.egraph.numNodes > r.limits.nodes then []
    else roundSizes r.limits.nodes r.rules r.egraph ++
      match saturateOnce r.rules r.limits.nodes r.report.iterations.size r.egraph with
      | .ok it g => if it.saturated then [] else checkedSizes rest (r.advance it g)
      | .error _ _ => []

/-- No size that is checked in at most so many rounds is over the limit. -/
def Roomy (n : Nat) (r : Runner) : Prop := ∀ k ∈ r.checkedSizes n, k ≤ r.limits.nodes

theorem Roomy.small (h : r.Roomy (n + 1)) : ¬r.egraph.numNodes > r.limits.nodes :=
  Nat.not_lt_of_le (h _ List.mem_cons_self)

theorem Roomy.round (h : r.Roomy (n + 1)) :
    ∀ k ∈ roundSizes r.limits.nodes r.rules r.egraph, k ≤ r.limits.nodes := by
  intro k hk
  refine h k (List.mem_cons_of_mem _ ?_)
  rw [if_neg h.small]
  exact List.mem_append_left _ hk

theorem Roomy.advance (h : r.Roomy (n + 1))
    (hrun : saturateOnce r.rules r.limits.nodes r.report.iterations.size r.egraph = .ok it g)
    (hsat : ¬it.saturated = true) : (r.advance it g).Roomy n := by
  intro k hk
  refine h k (List.mem_cons_of_mem _ ?_)
  rw [if_neg h.small, hrun]
  dsimp only
  rw [if_neg hsat]
  exact List.mem_append_right _ hk

/-- Two runners whose graphs are copies, with the rules in different orders. -/
structure Abreast (rules rules' : List Rule) (limits : Limits) (root : ClassId) (r r' : Runner) :
    Prop where
  ready : Ready rules limits .constantFolding r
  ready' : Ready rules' limits .constantFolding r'
  sizes : r.report.sizes = r'.report.sizes
  reason : r.report.stopReason = r'.report.stopReason
  lt : root < r.egraph.size
  lt' : root < r'.egraph.size
  copies : ∃ f f', Copies f f' r.egraph r'.egraph ∧ f root = r'.egraph.find root

/-- Runners stay abreast if the graphs that a round makes of theirs are copies. -/
theorem Abreast.advance (h : Abreast rules rules' limits root r r')
    (hrun : saturateOnce rules limits.nodes r.report.iterations.size r.egraph = .ok it g)
    (hrun' : saturateOnce rules' limits.nodes r'.report.iterations.size r'.egraph = .ok it' g')
    (hcopies : ∃ f f', Copies f f' g g' ∧ f root = g'.find root) :
    Abreast rules rules' limits root (r.advance it g) (r'.advance it' g') := by
  have hready : Ready rules limits .constantFolding (r.advance it g) := h.ready.round (by
    rw [h.ready.rules_eq, h.ready.limits_eq]
    exact hrun)
  have hready' : Ready rules' limits .constantFolding (r'.advance it' g') := h.ready'.round (by
    rw [h.ready'.rules_eq, h.ready'.limits_eq]
    exact hrun')
  have hle := (round_spec h.ready.steady h.ready.clean hrun).size_le
  have hle' := (round_spec h.ready'.steady h.ready'.clean hrun').size_le
  refine ⟨hready, hready', ?_, h.reason, Nat.lt_of_lt_of_le h.lt hle, Nat.lt_of_lt_of_le h.lt' hle',
    hcopies⟩
  obtain ⟨f, f', hcopies, -⟩ := hcopies
  have hsizes := hcopies.sizes_eq (hready.steady.1.orderly.hashConsed_of_clean hready.clean)
    (hready'.steady.1.orderly.hashConsed_of_clean hready'.clean)
  rw [sizes_advance, sizes_advance, h.sizes, saturateOnce_sizes hrun, saturateOnce_sizes hrun',
    hsizes]

/-- **One round** of such runners. -/
theorem Abreast.round (h : Abreast rules rules' limits root r r')
    (hperm : ∀ rule, rule ∈ rules ↔ rule ∈ rules') (hguards : ∀ rule ∈ rules, rule.guard = none)
    (hroom : r.Roomy (n + 1)) (hroom' : r'.Roomy (n + 1)) :
    (∃ it g it' g',
      saturateOnce r.rules r.limits.nodes r.report.iterations.size r.egraph = .ok it g ∧
      saturateOnce r'.rules r'.limits.nodes r'.report.iterations.size r'.egraph = .ok it' g' ∧
      (it.saturated = true ↔ it'.saturated = true) ∧
      Abreast rules rules' limits root (r.advance it g) (r'.advance it' g')) ∨
    (∃ e g, saturateOnce r.rules r.limits.nodes r.report.iterations.size r.egraph = .error e g) ∧
      ∃ e g', saturateOnce r'.rules r'.limits.nodes r'.report.iterations.size r'.egraph =
        .error e g' := by
  obtain ⟨f, f', hcopies, hroot⟩ := h.copies
  have hsizes := hroom.round
  have hsizes' := hroom'.round
  rw [h.ready.rules_eq, h.ready.limits_eq] at hsizes ⊢
  rw [h.ready'.rules_eq, h.ready'.limits_eq] at hsizes' ⊢
  rcases hcopies.rounds hperm hguards hsizes hsizes' r.report.iterations.size
    r'.report.iterations.size with ⟨it, g, it', g', f₁, f₁', hrun, hrun', hcopies', hsame⟩ | hboth
  · have hround := round_spec h.ready.steady h.ready.clean hrun
    have hround' := round_spec h.ready'.steady h.ready'.clean hrun'
    refine .inl ⟨it, g, it', g', hrun, hrun', ⟨?_, ?_⟩, ?_⟩
    · exact hcopies.saturated hperm hguards hsizes hround hrun h.ready'.steady h.ready'.clean hrun'
    · exact hcopies.symm.saturated (fun rule => (hperm rule).symm)
        (fun rule hr => hguards rule ((hperm rule).2 hr)) hsizes' hround' hrun' h.ready.steady
        h.ready.clean hrun
    · exact h.advance hrun hrun' ⟨f₁, f₁', hcopies', hsame root root h.lt h.lt' hroot⟩
  · exact .inr hboth

/-- How two runs end: with the same reason and runners abreast, or both with a conflict. -/
def Agree (rules rules' : List Rule) (limits : Limits) (root : ClassId) :
    EStateM.Result Conflict Runner StopReason → EStateM.Result Conflict Runner StopReason → Prop
  | .ok reason r, .ok reason' r' => reason = reason' ∧ Abreast rules rules' limits root r r'
  | .error _ r, .error _ r' => r.report.sizes = r'.report.sizes ∧
      r.report.stopReason = r'.report.stopReason
  | _, _ => False

theorem Agree.cases {res res' : EStateM.Result Conflict Runner StopReason}
    (h : Agree rules rules' limits root res res') :
    (∃ reason r r', res = .ok reason r ∧ res' = .ok reason r' ∧
      Abreast rules rules' limits root r r') ∨
    ∃ e e' r r', res = .error e r ∧ res' = .error e' r' ∧ r.report.sizes = r'.report.sizes ∧
      r.report.stopReason = r'.report.stopReason := by
  cases res with
  | ok reason r =>
    cases res' with
    | ok reason' r' =>
      obtain ⟨rfl, habreast⟩ := h
      exact .inl ⟨reason, r, r', rfl, rfl, habreast⟩
    | error e' r' => exact h.elim
  | error e r =>
    cases res' with
    | ok reason' r' => exact h.elim
    | error e' r' => exact .inr ⟨e, e', r, r', rfl, rfl, h⟩

/-- Runners that stop for one reason are still abreast. -/
theorem Abreast.stop (h : Abreast rules rules' limits root r r') (reason : StopReason) :
    Abreast rules rules' limits root { r with report.stopReason := some reason }
      { r' with report.stopReason := some reason } := by
  obtain ⟨⟨hrules, hlimits, hsteady, hclean⟩, ⟨hrules', hlimits', hsteady', hclean'⟩, hsizes, -,
    hlt, hlt', hcopies⟩ := h
  exact ⟨⟨hrules, hlimits, hsteady, hclean⟩, ⟨hrules', hlimits', hsteady', hclean'⟩, hsizes, rfl,
    hlt, hlt', hcopies⟩

/-- **A run** of such runners, round by round. -/
theorem Abreast.runWithin (h : Abreast rules rules' limits root r r')
    (hperm : ∀ rule, rule ∈ rules ↔ rule ∈ rules') (hguards : ∀ rule ∈ rules, rule.guard = none)
    (hroom : r.Roomy n) (hroom' : r'.Roomy n) :
    Agree rules rules' limits root (runWithin n r) (runWithin n r') := by
  induction n generalizing r r' with
  | zero => exact ⟨rfl, h⟩
  | succ n ih =>
    rw [runWithin_succ, runWithin_succ, if_neg hroom.small, if_neg hroom'.small]
    rcases h.round hperm hguards hroom hroom' with
      ⟨it, g, it', g', hrun, hrun', hsat, hnext⟩ | ⟨⟨e, g, hrun⟩, e', g', hrun'⟩
    · rw [hrun, hrun']
      dsimp only
      by_cases hstop : it.saturated = true
      · rw [if_pos hstop, if_pos (hsat.1 hstop)]
        exact ⟨rfl, hnext⟩
      · have hstop' : ¬it'.saturated = true := fun h' => hstop (hsat.2 h')
        rw [if_neg hstop, if_neg hstop']
        exact ih hnext (hroom.advance hrun hstop) (hroom'.advance hrun' hstop')
    · rw [hrun, hrun']
      exact ⟨h.sizes, h.reason⟩

theorem Abreast.run (h : Abreast rules rules' limits root r r')
    (hperm : ∀ rule, rule ∈ rules ↔ rule ∈ rules') (hguards : ∀ rule ∈ rules, rule.guard = none)
    (hnew : r.report.iterations = #[]) (hnew' : r'.report.iterations = #[])
    (hroom : r.Roomy limits.iterations) (hroom' : r'.Roomy limits.iterations) :
    Agree rules rules' limits root (Runner.run r) (Runner.run r') := by
  have hagree := h.runWithin hperm hguards hroom hroom'
  rw [run_eq, run_eq, hnew, hnew', h.ready.limits_eq, h.ready'.limits_eq, Array.size_empty,
    Nat.sub_zero]
  rcases hagree.cases with ⟨reason, r₁, r₁', hrun, hrun', hlast⟩ | ⟨e, e', r₁, r₁', hrun, hrun', h⟩
  · rw [bind_ok hrun, bind_ok hrun']
    exact ⟨rfl, hlast.stop reason⟩
  · rw [bind_error hrun, bind_error hrun']
    exact h

/-- A term is seeded without regard to the rules. -/
theorem seed_rules (t : Term) (r : Runner) (rules : List Rule) :
    seed t { r with rules := rules } = match seed t r with
      | .ok id r' => .ok id { r' with rules := rules }
      | .error e r' => .error e { r' with rules := rules } := by
  cases hadd : addTerm t r.egraph with
  | error e g =>
    have hseed : ∀ r : Runner, addTerm t r.egraph = .error e g →
        seed t r = .error e { r with egraph := g } := fun _ h => bind_error (onGraph_error h)
    rw [hseed r hadd, hseed { r with rules := rules } hadd]
  | ok id g =>
    cases id with
    | none =>
      have hseed : ∀ r : Runner, addTerm t r.egraph = .ok none g →
          seed t r = .ok none { r with egraph := g } := fun _ h => bind_ok (onGraph_ok h)
      rw [hseed r hadd, hseed { r with rules := rules } hadd]
    | some id =>
      cases hreb : rebuild g with
      | error e g' =>
        rw [seed_error hadd hreb, seed_error (r := { r with rules := rules }) hadd hreb]
      | ok n g' => rw [seed_ok hadd hreb, seed_ok (r := { r with rules := rules }) hadd hreb]

end Runner

/-! ## Saturations -/

/-- The sizes of the graph that are compared with the limit in a saturation. -/
def checkedSizes (rules : List Rule) (limits : Limits) (t : Term) : List Nat :=
  match Runner.seed t (.make rules limits .constantFolding) with
  | .ok (some _) r => r.checkedSizes (limits.iterations - r.report.iterations.size)
  | _ => []

/-- The graph finds both terms, in one class. -/
def EGraph.Equates (g : EGraph) (t u : Term) : Prop :=
  ∃ c, g.lookupTerm t = some c ∧ g.lookupTerm u = some c

theorem Embeds.equates (h : Embeds f g g') {u v : Term} (huv : g.Equates u v) :
    g'.Equates u v := by
  obtain ⟨c, hu, hv⟩ := huv
  exact ⟨f c, h.lookupTerm hu, h.lookupTerm hv⟩

/-- What a saturation says to its caller is the same for both lists of rules. -/
structure SameOutcome (rules rules' : List Rule) (limits : Limits) (t : Term) : Prop where
  conflict : (∃ e, (saturate rules limits t).1 = .error (.conflict e)) ↔
    ∃ e, (saturate rules' limits t).1 = .error (.conflict e)
  sizes : (saturate rules limits t).2.report.sizes = (saturate rules' limits t).2.report.sizes
  reason : (saturate rules limits t).2.report.stopReason =
    (saturate rules' limits t).2.report.stopReason
  equal : (∀ e, (saturate rules limits t).1 ≠ .error (.conflict e)) → ∀ u v,
    (saturate rules limits t).2.egraph.Equates u v ↔
      (saturate rules' limits t).2.egraph.Equates u v
  cost : (∀ e, (saturate rules limits t).1 ≠ .error (.conflict e)) → t.isEmpty = false →
    ∃ best best' k, t.simplify rules limits = .ok best ∧ t.simplify rules' limits = .ok best' ∧
      best.cost? = some k ∧ best'.cost? = some k

/-- Where both end with a conflict, only the rounds before it count. -/
theorem sameOutcome_of_conflict {r r' : Runner} {e e' : Conflict}
    (h : saturate rules limits t = (.error (.conflict e), r))
    (h' : saturate rules' limits t = (.error (.conflict e'), r'))
    (hsizes : r.report.sizes = r'.report.sizes)
    (hreason : r.report.stopReason = r'.report.stopReason) :
    SameOutcome rules rules' limits t where
  conflict := by
    rw [h, h']
    exact ⟨fun _ => ⟨e', rfl⟩, fun _ => ⟨e, rfl⟩⟩
  sizes := by rwa [h, h']
  reason := by rwa [h, h']
  equal := by
    rw [h]
    exact fun hno => absurd rfl (hno e)
  cost := by
    rw [h]
    exact fun hno => absurd rfl (hno e)

/-- Where both runners get to an end, their graphs are copies. -/
theorem sameOutcome_of_abreast {r r' : Runner}
    (hsat : saturate rules limits t = (.ok (r.egraph.find root), r))
    (hsat' : saturate rules' limits t = (.ok (r'.egraph.find root), r'))
    (h : Runner.Abreast rules rules' limits root r r') : SameOutcome rules rules' limits t := by
  obtain ⟨f, f', hcopies, hroot⟩ := h.copies
  constructor
  · rw [hsat, hsat']
    exact ⟨fun ⟨e, he⟩ => (by cases he), fun ⟨e, he⟩ => (by cases he)⟩
  · rw [hsat, hsat']
    exact h.sizes
  · rw [hsat, hsat']
    exact h.reason
  · rw [hsat, hsat']
    exact fun _ u v => ⟨hcopies.there.equates, hcopies.back.equates⟩
  · intro _ _
    have hs := hcopies.inOrder.listing.shape
    have hs' := hcopies.inOrder'.listing.shape
    obtain ⟨e, e', k, he, he', hk, hk'⟩ := hcopies.extract_cost (find_lt hs h.lt)
      (find_lt hs' h.lt') (by rw [hcopies.there.find _ h.lt, hroot, find_find hs'])
    exact ⟨e.term, e'.term, k, simplify_of_saturate hsat he, simplify_of_saturate hsat' he', hk,
      hk'⟩

/-- Runs that agree have the same outcome. -/
theorem sameOutcome_of_agree {r r' : Runner}
    (hseed : Runner.seed t (.make rules limits .constantFolding) = .ok (some root) r)
    (hseed' : Runner.seed t (.make rules' limits .constantFolding) = .ok (some root) r')
    (h : Runner.Agree rules rules' limits root (Runner.run r) (Runner.run r')) :
    SameOutcome rules rules' limits t := by
  have hsat := saturate_of_seed hseed
  have hsat' := saturate_of_seed hseed'
  rcases h.cases with ⟨reason, r₁, r₁', hrun, hrun', hlast⟩ |
    ⟨e, e', r₁, r₁', hrun, hrun', hsizes, hreason⟩
  · rw [hrun] at hsat
    rw [hrun'] at hsat'
    exact sameOutcome_of_abreast hsat hsat' hlast
  · rw [hrun] at hsat
    rw [hrun'] at hsat'
    exact sameOutcome_of_conflict hsat hsat' hsizes hreason

/-- **The order of the rules** decides nothing that a saturation tells, if they have no guards and
no size that is checked is over the limit.  Both orders meet with a conflict or neither does; the
rounds are as many, with as many nodes and classes after each of them; they stop for the same
reason; the same terms are found equal, and the terms extracted cost the same. -/
theorem saturate_perm (hperm : rules.Perm rules') (hguards : ∀ r ∈ rules, r.guard = none)
    (limits : Limits) (t : Term) (hroom : ∀ k ∈ checkedSizes rules limits t, k ≤ limits.nodes)
    (hroom' : ∀ k ∈ checkedSizes rules' limits t, k ≤ limits.nodes) :
    SameOutcome rules rules' limits t := by
  cases ht : t.isEmpty with
  | true =>
    have hnone := fun rules => Runner.saturate_of_isEmpty rules limits ht
    refine ⟨?_, ?_, ?_, ?_, ?_⟩
    · rw [hnone, hnone]
    · rw [hnone, hnone]
      rfl
    · rw [hnone, hnone]
      rfl
    · rw [hnone, hnone]
      exact fun _ _ _ => Iff.rfl
    · intro _ hempty
      rw [ht] at hempty
      cases hempty
  | false =>
    rcases seed_cases rules (Term.tree?_eq t ht) with ⟨root, g, hsown, hseed⟩ | ⟨e, hseed⟩
    · have hs := hseed limits
      have hs' := Runner.seed_rules t (.make rules limits .constantFolding) rules'
      rw [hs] at hs'
      have hseed' : Runner.seed t (.make rules' limits .constantFolding) =
          .ok (some root) (sownRunner rules' limits root g) := hs'
      rw [checkedSizes, hs] at hroom
      rw [checkedSizes, hseed'] at hroom'
      refine sameOutcome_of_agree hs hseed' (Runner.Abreast.run ?_ (fun _ => hperm.mem_iff) hguards
        rfl rfl hroom hroom')
      exact ⟨(Runner.ready_make rules limits .constantFolding).seed hs,
        (Runner.ready_make rules' limits .constantFolding).seed hseed', rfl, rfl, hsown.lt,
        hsown.lt, g.find, g.find, Copies.refl hsown.inOrder, rfl⟩
    · obtain ⟨r, hs⟩ := hseed limits
      have hs' := Runner.seed_rules t (.make rules limits .constantFolding) rules'
      rw [hs] at hs'
      have hseed' : Runner.seed t (.make rules' limits .constantFolding) =
          .error e { r with rules := rules' } := hs'
      exact sameOutcome_of_conflict (saturate_of_seed_error hs) (saturate_of_seed_error hseed') rfl
        rfl

/-- The order of factors, the factor one, and products of sums. -/
def productRules : List Rule :=
  [Rule.Default.rule "arithmetic" "commute-mul" (.binary .mul (.hole "x") (.hole "y"))
      (.binary .mul (.hole "y") (.hole "x")) (by decide),
    Rule.Default.rule "arithmetic" "mul-one" (.binary .mul (.hole "x") (.leaf (.const (.int 1))))
      (.hole "x") (by decide),
    Rule.Default.rule "arithmetic" "distribute-mul"
      (.binary .mul (.hole "x") (.binary .add (.hole "y") (.hole "z")))
      (.binary .add (.binary .mul (.hole "x") (.hole "y")) (.binary .mul (.hole "x") (.hole "z")))
      (by decide)]

/-- The three rules meet with other sizes on the way when they are reversed.  After each of the four
rounds there are as many nodes and classes, and `1 * (x + 2 * 3)` costs three in both orders. -/
theorem saturate_perm_product :
    let t := Term.ofTree (.binary .mul (.leaf (.const (.int 1))) (.binary .add (.leaf (.var "x"))
      (.binary .mul (.leaf (.const (.int 2))) (.leaf (.const (.int 3))))))
    productRules.Perm productRules.reverse ∧ (∀ r ∈ productRules, r.guard = none) ∧
      checkedSizes productRules .default t =
        [7, 8, 10, 10, 11, 11, 11, 11, 11, 11, 11, 10, 10, 10, 10] ∧
      checkedSizes productRules.reverse .default t =
        [7, 9, 10, 10, 10, 10, 11, 11, 13, 13, 13, 10, 10, 10, 10] ∧
      SameOutcome productRules productRules.reverse .default t ∧
      (saturate productRules.reverse .default t).2.report.sizes =
        #[(10, 8), (11, 7), (10, 6), (10, 6)] ∧
      (saturate productRules.reverse .default t).2.report.stopReason = some .saturated ∧
      ∃ best, t.simplify productRules.reverse .default = .ok best ∧ best.cost? = some 3 := by
  intro t
  have hperm : productRules.Perm productRules.reverse := (List.reverse_perm _).symm
  have hguards : ∀ r ∈ productRules, r.guard = none := by decide
  have hsizes : checkedSizes productRules .default t =
      [7, 8, 10, 10, 11, 11, 11, 11, 11, 11, 11, 10, 10, 10, 10] := by decide +kernel
  have hsizes' : checkedSizes productRules.reverse .default t =
      [7, 9, 10, 10, 10, 10, 11, 11, 13, 13, 13, 10, 10, 10, 10] := by decide +kernel
  have houtcome := saturate_perm hperm hguards .default t (by rw [hsizes]; decide)
    (by rw [hsizes']; decide)
  have hrounds : (saturate productRules .default t).2.report.sizes =
      #[(10, 8), (11, 7), (10, 6), (10, 6)] := by decide +kernel
  have hreason : (saturate productRules .default t).2.report.stopReason = some .saturated := by
    decide +kernel
  have hcost : (t.simplify productRules .default).toOption.bind Term.cost? = some 3 := by
    decide +kernel
  have hno : ∀ e, (saturate productRules .default t).1 ≠ .error (.conflict e) := by
    intro e he
    have hok : (saturate productRules .default t).1.toOption.isSome = true := by decide +kernel
    rw [he] at hok
    cases hok
  obtain ⟨best, best', k, hbest, hbest', hk, hk'⟩ := houtcome.cost hno (by decide +kernel)
  rw [hbest] at hcost
  obtain rfl := Option.some.inj (hk.symm.trans hcost)
  exact ⟨hperm, hguards, hsizes, hsizes', houtcome, houtcome.sizes ▸ hrounds,
    houtcome.reason ▸ hreason, best', hbest', hk'⟩

end EqSat
