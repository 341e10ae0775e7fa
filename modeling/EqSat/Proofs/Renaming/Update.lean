import EqSat.Proofs.EGraph.Calls
import EqSat.Proofs.EGraph.Rebuild
import EqSat.Proofs.Renaming.Graph

/-!
# Changes of renamed graphs

Whatever is done to a graph can be done to the renamed one, step by step: each step gives the same
ids and counts, or ends with the same conflict, and leaves graphs of which one is the other under
new names.

    InStep.bind                  what is done after another
    Renamed.add                 nodes are found where they were
    Renamed.union               the same classes are joined
    Renamed.rebuild             the worklists go on in step
-/

namespace EqSat

open EGraph

variable {ρ : String → String} {g g' : EGraph}

/-- Both steps give the same or end with the same conflict, and leave states that are related. -/
inductive InStep {σ α : Type} (R : σ → σ → Prop) :
    EStateM.Result Conflict σ α → EStateM.Result Conflict σ α → Prop where
  | ok {s s' : σ} (a : α) (h : R s s') : InStep R (.ok a s) (.ok a s')
  | error {s s' : σ} (e : Conflict) (h : R s s') : InStep R (.error e s) (.error e s')

theorem InStep.bind {σ α β : Type} {R : σ → σ → Prop} {x x' : EStateM Conflict σ α}
    {f f' : α → EStateM Conflict σ β} {s s' : σ} (hx : InStep R (x s) (x' s'))
    (hf : ∀ a s s', R s s' → InStep R (f a s) (f' a s')) :
    InStep R ((x >>= f) s) ((x' >>= f') s') := by
  generalize hrun : x s = res, hrun' : x' s' = res' at hx
  cases hx with
  | ok a h =>
    rw [bind_ok hrun, bind_ok hrun']
    exact hf a _ _ h
  | error e h =>
    rw [bind_error hrun, bind_error hrun']
    exact .error e h

namespace Renamed

/-! ## Joins -/

theorem mergeInto_of_ok {x y : EClass} {data : Option Constant}
    (h : mergeConstants x.data y.data = .ok data) (g : EGraph) :
    EGraph.mergeInto x y g = .ok true (g.absorb x.id y data) := by
  rw [EGraph.mergeInto, h]
  rfl

theorem mergeInto_of_error {x y : EClass} {left right : Constant}
    (h : mergeConstants x.data y.data = .error (left, right)) (g : EGraph) :
    EGraph.mergeInto x y g = .error ⟨left, right, x.id, y.id⟩ g := by
  rw [EGraph.mergeInto, h]
  rfl

theorem mergeInto (h : Renamed ρ g g') (x y : EClass) :
    InStep (Renamed ρ) (EGraph.mergeInto x y g)
      (EGraph.mergeInto (x.rename ρ) (y.rename ρ) g') := by
  have hdata : mergeConstants (x.rename ρ).data (y.rename ρ).data =
      mergeConstants x.data y.data := rfl
  cases hm : mergeConstants x.data y.data with
  | error lr =>
    rw [mergeInto_of_error hm, mergeInto_of_error (hdata.trans hm)]
    exact .error _ h
  | ok data =>
    rw [mergeInto_of_ok hm, mergeInto_of_ok (hdata.trans hm)]
    exact .ok true (h.absorb x.id y data)

theorem merge (h : Renamed ρ g g') (a b : ClassId) :
    InStep (Renamed ρ) (EGraph.merge a b g) (EGraph.merge a b g') := by
  rw [merge_eq, merge_eq, h.classAt_eq, h.classAt_eq]
  cases g.classAt? a with
  | none => exact .ok false h
  | some x =>
    cases g.classAt? b with
    | none => exact .ok false h
    | some y =>
      have hsize : ∀ c : EClass, (c.rename ρ).parents.size = c.parents.size :=
        fun c => Array.size_map
      dsimp only [Option.map_some]
      rw [hsize, hsize]
      show InStep (Renamed ρ) _ ((if x.id = y.id then return false else _ : Update Bool) g')
      split
      · exact .ok false h
      · split
        · exact h.mergeInto y x
        · exact h.mergeInto x y

theorem intern (h : Renamed ρ g g') (hρ : ρ.Injective) (n : ENode) :
    InStep (Renamed ρ) (EGraph.intern n g) (EGraph.intern (n.rename ρ) g') := by
  rw [intern_eq, intern_eq, h.memo, h.find_eq, h.links]
  cases g.memo[n]? with
  | some id => exact .ok _ h
  | none => exact .ok _ (h.enter hρ n)

/-- A class is settled in step: the leaf of a constant has no name. -/
theorem settle (h : Renamed ρ g g') (hρ : ρ.Injective) (id : ClassId) :
    InStep (Renamed ρ) (EGraph.settle id g) (EGraph.settle id g') := by
  rw [settle_eq, settle_eq, h.constantAt_eq]
  cases g.constantAt? id with
  | none => exact .ok () h
  | some k =>
    refine (h.intern hρ (.leaf (.const k))).bind fun leaf g g' h => ?_
    refine (h.merge id leaf).bind fun joined g g' h => ?_
    refine .ok () ?_
    dsimp only
    rw [h.find_eq]
    exact h.modifyClass EClass.prune EClass.prune prune_rename _

/-- **Adding a node** finds it where it was, or enters it. -/
theorem add (h : Renamed ρ g g') (hρ : ρ.Injective) (n : ENode) :
    InStep (Renamed ρ) (EGraph.add n g) (EGraph.add (n.rename ρ) g') := by
  have hsize : g'.size = g.size := by rw [size, size, h.links]
  rw [add_eq, add_eq, h.canonicalize_eq, h.memo, h.find_eq, hsize]
  cases g.memo[g.canonicalize n]? with
  | some id => exact .ok _ h
  | none =>
    refine ((h.enter hρ _).settle hρ g.size).bind fun _ g₁ g₁' h => ?_
    show InStep (Renamed ρ) (.ok (g₁.find g.size) g₁) (.ok (g₁'.find g.size) g₁')
    rw [h.find_eq]
    exact .ok _ h

/-- **A union** joins the same classes. -/
theorem union (h : Renamed ρ g g') (hρ : ρ.Injective) (a b : ClassId) :
    InStep (Renamed ρ) (EGraph.union a b g) (EGraph.union a b g') := by
  refine (h.merge a b).bind fun joined g g' h => ?_
  cases joined with
  | false => exact .ok false h
  | true => exact (h.settle hρ a).bind fun _ _ _ h => .ok true h

/-! ## Rebuilding -/

theorem repair (h : Renamed ρ g g') (hρ : ρ.Injective) (u : Usage) :
    InStep (Renamed ρ) (EGraph.repair u g) (EGraph.repair (u.rename ρ) g') := by
  have hredirect : Renamed ρ (g.redirect u g.pending) (g'.redirect (u.rename ρ) g'.pending) :=
    { h with
      memo := fun m => by
        show (g'.memo.insert (g'.canonicalize (u.1.rename ρ)) u.2)[m.rename ρ]? = _
        rw [h.canonicalize_eq]
        exact h.getElem_insert hρ _ _ m }
  have hrun := repair_eq u g g.pending
  have hrun' := repair_eq (u.rename ρ) g' g'.pending
  have hmemo : g'.memo[g'.canonicalize (u.rename ρ).1]? = g.memo[g.canonicalize u.1]? := by
    rw [Usage.rename, h.canonicalize_eq, h.memo]
  rw [hmemo] at hrun'
  rw [show EGraph.repair u g = _ from hrun, show EGraph.repair (u.rename ρ) g' = _ from hrun']
  cases g.memo[g.canonicalize u.1]? with
  | some id => exact hredirect.union hρ id u.2
  | none => exact .ok false hredirect

theorem refold (h : Renamed ρ g g') (hρ : ρ.Injective) (u : Usage) :
    InStep (Renamed ρ) (EGraph.refold u g) (EGraph.refold (u.rename ρ) g') := by
  have hclass : g'.classAt? (u.rename ρ).2 = (g.classAt? u.2).map (EClass.rename ρ) :=
    h.classAt_eq u.2
  have hfold : g'.foldNode (u.rename ρ).1 = g.foldNode u.1 := h.foldNode_eq u.1
  rw [refold_run, refold_run, hclass, hfold]
  cases g.classAt? u.2 with
  | none => exact .ok () h
  | some c =>
    dsimp only [Option.map_some]
    rw [show (c.rename ρ).data = c.data from rfl, show (c.rename ρ).id = c.id from rfl]
    cases mergeConstants c.data (g.foldNode u.1) with
    | error lr => exact .error _ h
    | ok data =>
      dsimp only
      split
      · exact .ok () h
      · have hclass := h.modifyClass ({ · with data := data }) ({ · with data := data })
          (fun _ => rfl) c.id
        have hlearn : Renamed ρ (g.learn c data) (g'.learn (c.rename ρ) data) :=
          { hclass with
            foldPending := by
              rw [learn, learn, h.foldPending]
              exact pushUsages_rename _ _ }
        exact hlearn.settle hρ c.id

/-- The next usage is the same one, under its new name. -/
theorem takeUsage (h : Renamed ρ g g') (stage : Stage) :
    (takeUsage stage g = none ∧ takeUsage stage g' = none) ∨
      ∃ stage' u g₁ g₁', takeUsage stage g = some (stage', u, g₁) ∧
        takeUsage stage g' = some (stage', u.rename ρ, g₁') ∧ Renamed ρ g₁ g₁' := by
  have hp := h.pending
  have hf := h.foldPending
  cases stage <;> cases hgp : g.pending <;> cases hgf : g.foldPending <;>
    rw [hgp, List.map] at hp <;> rw [hgf, List.map] at hf <;>
    simp only [EGraph.takeUsage, hgp, hgf, hp, hf, Option.some.injEq, Prod.mk.injEq, and_true,
      false_or, reduceCtorEq, false_and, exists_false, or_false]
  all_goals
    exact ⟨_, _, _, _, ⟨rfl, rfl, rfl⟩, ⟨rfl, rfl, rfl⟩,
      { h with pending := rfl, foldPending := rfl }⟩

theorem drain (hρ : ρ.Injective) (fuel : Nat) (stage : Stage) (unions : Nat)
    (h : Renamed ρ g g') :
    InStep (Renamed ρ) (EGraph.drain fuel stage unions g) (EGraph.drain fuel stage unions g') := by
  induction fuel generalizing g g' stage unions with
  | zero => exact .ok unions h
  | succ fuel ih =>
    rw [drain_succ, drain_succ]
    rcases h.takeUsage stage with ⟨hnone, hnone'⟩ | ⟨stage', u, g₁, g₁', hsome, hsome', h₁⟩
    · rw [hnone, hnone']
      exact .ok unions h
    · rw [hsome, hsome']
      cases stage' with
      | congruence => exact (h₁.repair hρ u).bind fun joined _ _ h => ih _ _ h
      | constants => exact (h₁.refold hρ u).bind fun _ _ _ h => ih _ _ h

/-- **A rebuild** joins as many classes. -/
theorem rebuild (h : Renamed ρ g g') (hρ : ρ.Injective) :
    InStep (Renamed ρ) (EGraph.rebuild g) (EGraph.rebuild g') := by
  rw [rebuild_eq, rebuild_eq, h.work_eq]
  exact (h.drain hρ g.work .congruence 0).bind fun unions _ _ h => .ok unions (h.tidy hρ)

end Renamed

end EqSat
