import EqSat.Proofs.Saturated
import EqSat.Proofs.Termination.Rebuild

/-!
# Runs come to an end

Adding a term and applying rules go through finite lists, and each call on the way ends, as all
graphs on the way are reachable.  A round ends with a rebuild.  It is reported, and so the limit on
the number of rounds is reached at last.

    applyFound_ends    rules are applied to what was found
    rounds_ends        by induction on the number of rounds that the limit allows
    saturate_ends      a runner is seeded and run
-/

namespace EqSat

open EGraph

variable {analysis : Analysis} {g : EGraph} {s : Subst}

namespace Open

variable {α β : Type} {P : EGraph → Prop} {Q : α → EGraph → Prop}

/-! ## Terms and rules -/

/-- Two programs that end as bounded ones do, the one after the other, where the first one keeps
`P`. -/
theorem Ends.bind_arrives {x : Open EGraph α} {y : α → Open EGraph β} {f : Update α}
    {k : α → Update β} (hx : x.Ends g (f g)) (hf : Arrives P Q g (f g))
    (hy : ∀ a g', P g' → g.size ≤ g'.size → Q a g' → (y a).Ends g' (k a g')) :
    (x >>= y).Ends g ((f >>= k) g) := by
  refine hx.bind_bounded fun a g' hrun => ?_
  rw [hrun] at hf
  exact hy a g' hf.1 hf.2.1 hf.2.2.2

theorem addNodes_ends (ns : List (Node Nat)) {ids : Array ClassId} {g : EGraph}
    (h : Reached analysis g) (hids : ∀ id ∈ ids, id < g.size) :
    (addNodes ns ids).Ends g (EGraph.addNodes ns ids g) := by
  induction ns generalizing ids g with
  | nil => exact .of_pure ids g
  | cons n ns ih =>
    rw [addNodes, EGraph.addNodes]
    cases hm : n.mapM (ids[·]?) with
    | none => exact ih h hids
    | some m =>
      have hchild := child_lt_of_mapM hids hm
      exact (add_ends h.orderly.toCoherent hchild).bind_arrives
        ((lasting_reached analysis).arrives_add h hchild) fun id g' h' hle hid =>
          ih h' (lt_of_mem_push hids hle hid.1)

theorem addTerm_ends (h : Reached analysis g) (t : Term) :
    (addTerm t).Ends g (EGraph.addTerm t g) :=
  (addNodes_ends _ h fun id hid => by simp at hid).bind_bounded
    fun _ g' _ => .after_get (.of_pure _ g')

theorem build_ends (p : Pattern) {g : EGraph} (h : Reached analysis g)
    (hs : ∀ x ∈ p.vars, s.Binds g x) : (build s p).Ends g (p.build s g) := by
  have hP := lasting_reached analysis
  induction p generalizing g with
  | hole x => exact .after_get (.of_pure _ g)
  | leaf l => exact add_ends h.orderly.toCoherent fun a ha => by cases ha
  | unary op p ih =>
    refine (ih h hs).bind_arrives (hP.arrives_build p h hs) fun a g' h' _ ha => ?_
    refine add_ends h'.orderly.toCoherent ?_
    simpa [Node.children] using ha.1
  | binary op p q ihp ihq =>
    have hsp : ∀ x ∈ p.vars, s.Binds g x := fun x hx => hs x (Pattern.mem_vars_binary.2 (.inl hx))
    refine (ihp h hsp).bind_arrives (hP.arrives_build p h hsp) fun a g₁ h₁ hle ha => ?_
    have hsq : ∀ x ∈ q.vars, s.Binds g₁ x := fun x hx =>
      (hs x (Pattern.mem_vars_binary.2 (.inr hx))).mono hle
    refine (ihq h₁ hsq).bind_arrives (hP.arrives_build q h₁ hsq) fun b g₂ h₂ hle' hb => ?_
    refine add_ends h₂.orderly.toCoherent ?_
    simpa [Node.children] using ⟨Nat.lt_of_lt_of_le ha.1 hle', hb.1⟩

theorem applyMatch_ends {r : Rule} {m : Match} (h : Reached analysis g)
    (hm : Match.Fits g r m) : (applyMatch r m).Ends g (r.applyMatch m g) := by
  have hvars : ∀ x ∈ r.rhs.vars, m.2.Binds g x := fun x hx => hm.binds x (r.rhs_bound x hx)
  have hrun : r.applyMatch m g = (if r.guard.all (·.passes g m.2) then
      r.rhs.build m.2 >>= fun b => EGraph.union m.1 b else return false : Update Bool) g := rfl
  rw [hrun]
  refine .after_get ?_
  split
  · refine (build_ends r.rhs h hvars).bind_arrives
      ((lasting_reached analysis).arrives_build r.rhs h hvars) fun b g' h' hle hb => ?_
    have hc := h'.orderly
    exact union_ends hc.toIndexed (hc.recalled.upTo _ _) (Nat.lt_of_lt_of_le hm.lt hle) hb.1
  · exact .of_pure false g

theorem applyFrom_ends {r : Rule} (ms : List Match) (joined : Nat) {g : EGraph}
    (h : Reached analysis g) (hms : ∀ m ∈ ms, Match.Fits g r m) :
    (applyFrom r ms joined).Ends g (r.applyFrom ms joined g) := by
  induction ms generalizing joined g with
  | nil => exact .of_pure joined g
  | cons m ms ih =>
    have hm := hms m List.mem_cons_self
    exact (applyMatch_ends h hm).bind_arrives
      ((lasting_reached analysis).arrives_applyMatch h hm) fun changed g' h' hle _ =>
        ih _ h' fun m' hm' => (hms m' (List.mem_cons_of_mem _ hm')).mono hle

theorem applyFound_ends (nodeLimit : Nat) (found : List (Rule × List Match)) (applied : Tally)
    {g : EGraph} (h : Reached analysis g) (hfound : AllFit g found) :
    (applyFound nodeLimit found applied).Ends g
      (EGraph.applyFound nodeLimit found applied g) := by
  induction found generalizing applied g with
  | nil => exact .of_pure applied g
  | cons f rest ih =>
    obtain ⟨r, ms⟩ := f
    have hms := hfound _ List.mem_cons_self
    have hrest : AllFit g rest := fun f hf => hfound f (List.mem_cons_of_mem _ hf)
    rw [applyFound, EGraph.applyFound]
    split
    · exact ih applied h hrest
    · refine (applyFrom_ends ms 0 h hms).bind_arrives
        ((lasting_reached analysis).arrives_applyFrom ms 0 h hms) fun joined g' h' hle _ => ?_
      refine .after_get ?_
      show Ends _ g' ((if g'.numNodes > nodeLimit then return _
        else EGraph.applyFound nodeLimit rest _ : Update Tally) g')
      split
      · exact .of_pure _ g'
      · exact ih _ h' (hrest.mono hle)

/-! ## Runs -/

/-- **A round** ends, and leaves a reachable graph, if it succeeds. -/
theorem saturateOnce_ends (h : Reached analysis g) (rules : List Rule) (nodeLimit index : Nat) :
    (saturateOnce rules nodeLimit index).Ends g (EGraph.saturateOnce rules nodeLimit index g) ∧
      ∀ it g', EGraph.saturateOnce rules nodeLimit index g = .ok it g' → Reached analysis g' := by
  have hfit := h.backed.toGrounded.allFit rules
  have harrives := (lasting_reached analysis).arrives_applyFound nodeLimit _ [] h hfit
  constructor
  · rw [saturateOnce_eq]
    refine .after_get ((applyFound_ends nodeLimit _ [] h hfit).bind_arrives harrives
      fun applied g₁ h₁ _ _ => ?_)
    exact (rebuild_ends h₁.orderly.toCoherent).bind_bounded
      fun _ g₂ _ => .after_get (.of_pure _ g₂)
  · intro it g' hrun
    obtain ⟨applied, g₁, unions, happ, hreb, -⟩ := saturateOnce_ok hrun
    rw [happ] at harrives
    have hreached := harrives.1.rebuild
    rwa [hreb] at hreached

/-- Work on the graph of a runner, and what follows it. -/
theorem onGraph_bind_ends {x : Open EGraph α} {f : Update α} {y : α → Open Runner β}
    {k : α → RunM β} {r : Runner} (hx : x.Ends r.egraph (f r.egraph))
    (hy : ∀ a g, f r.egraph = .ok a g →
      (y a).Ends { r with egraph := g } (k a { r with egraph := g })) :
    (onGraph x >>= y).Ends r ((Runner.onGraph f >>= k) r) := by
  have hgraph : (onGraph x).Ends r (Runner.onGraph f r) := .onGraph hx
  refine hgraph.bind_bounded fun a r' hrun => ?_
  cases hf : f r.egraph with
  | ok b g =>
    rw [Runner.onGraph_ok hf] at hrun
    cases hrun
    exact hy a g hf
  | error e g =>
    rw [Runner.onGraph_error hf] at hrun
    cases hrun

/-- **Rounds** end as those that are counted down from the limit. -/
theorem rounds_ends (n : Nat) {r : Runner} (h : Reached analysis r.egraph)
    (hn : n = r.limits.iterations - r.report.iterations.size) :
    (call .rounds).Ends r (Runner.runWithin n r) := by
  induction n generalizing r with
  | zero =>
    refine .call (.after_get ?_)
    rw [if_pos (by omega)]
    exact .of_pure StopReason.iterationLimit r
  | succ n ih =>
    have hrun : Runner.runWithin (n + 1) r =
        (if r.egraph.numNodes > r.limits.nodes then return .nodeLimit
        else Runner.onGraph (EGraph.saturateOnce r.rules r.limits.nodes
            r.report.iterations.size) >>= fun it => do
          modify fun r => { r with
            report := { r.report with iterations := r.report.iterations.push it } }
          if it.saturated then return .saturated
          Runner.runWithin n : RunM StopReason) r := rfl
    rw [hrun]
    refine .call (.after_get ?_)
    rw [if_neg (by omega)]
    split
    · exact .of_pure StopReason.nodeLimit r
    · obtain ⟨hround, hnext⟩ := saturateOnce_ends h r.rules r.limits.nodes
        r.report.iterations.size
      refine onGraph_bind_ends hround fun it g hit => .after_modify ?_
      show Ends _ _ ((if it.saturated then return .saturated
        else Runner.runWithin n : RunM StopReason) _)
      split
      · exact .of_pure StopReason.saturated _
      · refine ih (hnext it g hit) ?_
        show n = r.limits.iterations - (r.report.iterations.push it).size
        rw [Array.size_push]
        omega

/-- **A run** ends as the bounded one does. -/
theorem run_ends {r : Runner} (h : Reached analysis r.egraph) : run.Ends r (Runner.run r) := by
  rw [Runner.run_eq]
  exact (rounds_ends _ h rfl).bind_bounded fun reason _ _ => .after_modify (.of_pure reason _)

/-- **Seeding** ends. -/
theorem seed_ends {r : Runner} (h : Reached analysis r.egraph) (t : Term) :
    (seed t).Ends r (Runner.seed t r) := by
  refine onGraph_bind_ends (addTerm_ends h t) fun root g hadd => ?_
  have hreached := ((lasting_reached analysis).arrives_addTerm h t).left
  rw [hadd] at hreached
  have hc : g.Coherent := (Reached.orderly hreached).toCoherent
  cases root with
  | none => exact .of_pure none _
  | some id =>
    refine .after_modify ?_
    exact onGraph_bind_ends (rebuild_ends hc) fun _ _ _ => .of_pure (some id) _

/-- **A saturation** ends as the bounded one does. -/
theorem saturate_ends (rules : List Rule) (limits : Limits) (analysis : Analysis) (t : Term) :
    (saturate t).Ends (.make rules limits analysis)
      (Runner.saturate t (.make rules limits analysis)) := by
  have hready := Runner.ready_make rules limits analysis
  refine (seed_ends hready.steady.1 t).bind_bounded fun root r hseed => ?_
  cases root with
  | none => exact .of_pure none r
  | some id =>
    have hreached := (hready.seed hseed).steady.1
    exact (run_ends hreached).bind_bounded fun _ r' _ => .after_get (.of_pure _ r')

end Open

end EqSat
