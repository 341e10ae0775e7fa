import EqSat.Proofs.Orderly
import EqSat.Proofs.Termination.Calls

/-!
# A rebuild comes to an end

Each usage that is looked at leaves less work than there was, whatever it puts on the worklists.
So the loops of a rebuild end before the bound on the work is reached, and do the same as the one
loop that stops at this bound.

    pass_cons, refoldPass_cons    one usage, and all that follows it
    endWithin                     the loops end within any bound on the work
    rebuild_ends                  a rebuild ends as the bounded one does
-/

namespace EqSat.Open

open EGraph

variable {g : EGraph} {u : Usage} {rest : List Usage}

/-! ## One usage -/

/-- A repair ends. -/
theorem repair_ends (h : g.Coherent) (hp : g.pending = u :: rest) :
    (repair u).Ends { g with pending := rest } (EGraph.repair u { g with pending := rest }) := by
  have hmem : u ∈ g.pending := by
    rw [hp]
    exact List.mem_cons_self
  have hpresent : ({ g with pending := rest } : EGraph).memo[({ g with pending := rest } :
    EGraph).canonicalize u.1]? = g.memo[g.canonicalize u.1]? := rfl
  rw [repair_eq]
  refine .after_get (.after_set ?_)
  rw [hpresent]
  cases hm : g.memo[g.canonicalize u.1]? with
  | none => exact .of_pure false (g.redirect u rest)
  | some id =>
    have hunion := union_ends (indexed_redirect h.toIndexed hp) (recalledUpTo_redirect h hp hm)
      (((h.entry (g.canonicalize u.1, id) (.memo hm)).lt h.shape :))
      (((h.entry u (.pending hmem)).lt h.shape :))
    exact hunion

/-- An evaluation ends, if the settling ends that may follow it. -/
theorem refold_ends_of_settle (hsettle : ∀ c k, g.classAt? u.2 = some c → c.data = none →
      g.foldNode u.1 = some k →
      (call (.settle c.id)).Ends (g.learn c (some k)) (EGraph.settle c.id (g.learn c (some k)))) :
    (refold u).Ends g (EGraph.refold u g) := by
  rw [refold_run u g]
  refine .after_get ?_
  cases hc : g.classAt? u.2 with
  | none => exact .of_pure () g
  | some c =>
    dsimp only
    cases hm : mergeConstants c.data (g.foldNode u.1) with
    | error lr => exact .of _ g
    | ok data =>
      dsimp only
      by_cases hsame : data = c.data
      · rw [if_pos hsame, if_pos hsame]
        exact .of_pure () g
      · rw [if_neg hsame, if_neg hsame]
        obtain ⟨hnone, k, hk, rfl⟩ := mergeConstants_eq_new hm hsame
        exact .after_set (hsettle c k hc hnone hk)

/-- An evaluation ends. -/
theorem refold_ends (h : g.Coherent) :
    (refold u).Ends { g with foldPending := rest }
      (EGraph.refold u { g with foldPending := rest }) := by
  have h' : ({ g with foldPending := rest } : EGraph).Coherent := coherent_setFoldPending h
  refine refold_ends_of_settle fun c k hc hnone hk => ?_
  have hstored : ({ g with foldPending := rest } : EGraph).stored? c.id = some c := by
    rw [h'.shape.id_eq _ c hc]
    exact hc
  exact settle_ends (indexed_learn h'.toIndexed hstored hnone (constantFolding_of_foldNode hk))
    (recalled_learn h'.shape h'.recalled hstored hnone) (lt_of_stored h.shape hstored)

/-! ## All usages -/

theorem repairAll_nil (hp : g.pending = []) (unions : Nat) :
    (call (.repairAll unions)).Ends g (.ok unions g) := by
  refine .call (.after_get ?_)
  rw [hp]
  exact .of_pure unions g

theorem repairAll_cons (hp : g.pending = u :: rest) {unions : Nat}
    {o : EStateM.Result Conflict EGraph Nat}
    (h : (repair u >>= fun joined =>
      call (.repairAll (if joined then unions + 1 else unions))).Ends
        { g with pending := rest } o) : (call (.repairAll unions)).Ends g o := by
  refine .call (.after_get ?_)
  rw [hp]
  exact .after_set h

theorem refoldAll_nil (hf : g.foldPending = []) : (call .refoldAll).Ends g (.ok () g) := by
  refine .call (.after_get ?_)
  rw [hf]
  exact .of_pure () g

theorem refoldAll_cons (hf : g.foldPending = u :: rest) {o : EStateM.Result Conflict EGraph Unit}
    (h : (refold u >>= fun _ => call .refoldAll).Ends { g with foldPending := rest } o) :
    (call .refoldAll).Ends g o := by
  refine .call (.after_get ?_)
  rw [hf]
  exact .after_set h

/-- All evaluations, and then both worklists again. -/
def refoldPass (unions : Nat) : Open EGraph Nat := do
  call .refoldAll
  call (.drain unions)

/-- All repairs, then all evaluations, and then both worklists again. -/
def pass (unions : Nat) : Open EGraph Nat := do
  let unions ← call (.repairAll unions)
  refoldPass unions

theorem drain_nil (hp : g.pending = []) (hf : g.foldPending = []) (unions : Nat) :
    (call (.drain unions)).Ends g (.ok unions g) := by
  refine .call (.after_get ?_)
  rw [if_pos ⟨hp, hf⟩]
  exact .of_pure unions g

theorem pass_nil (hp : g.pending = []) {unions : Nat} {o : EStateM.Result Conflict EGraph Nat}
    (h : (refoldPass unions).Ends g o) : (pass unions).Ends g o :=
  .bind (repairAll_nil hp unions) h

theorem pass_cons (hp : g.pending = u :: rest) {unions : Nat}
    {o : EStateM.Result Conflict EGraph Nat}
    (h : (repair u >>= fun joined => pass (if joined then unions + 1 else unions)).Ends
      { g with pending := rest } o) : (pass unions).Ends g o :=
  h.assoc.bind_left fun _ => repairAll_cons hp

/-- Where nothing is left to be done, a pass does nothing. -/
theorem drain_of_pass {unions : Nat} {o : EStateM.Result Conflict EGraph Nat}
    (h : (pass unions).Ends g o) : (call (.drain unions)).Ends g o := by
  by_cases hnil : g.pending = [] ∧ g.foldPending = []
  · have hdrain := drain_nil hnil.1 hnil.2 unions
    have hpass : (pass unions).Ends g (.ok unions g) :=
      pass_nil hnil.1 (.bind (refoldAll_nil hnil.2) hdrain)
    rwa [h.unique hpass]
  · refine .call (.after_get ?_)
    rw [if_neg hnil]
    exact h

theorem refoldPass_nil (hf : g.foldPending = []) {unions : Nat}
    {o : EStateM.Result Conflict EGraph Nat} (h : (pass unions).Ends g o) :
    (refoldPass unions).Ends g o :=
  .bind (refoldAll_nil hf) (drain_of_pass h)

theorem refoldPass_cons (hf : g.foldPending = u :: rest) {unions : Nat}
    {o : EStateM.Result Conflict EGraph Nat}
    (h : (refold u >>= fun _ => refoldPass unions).Ends { g with foldPending := rest } o) :
    (refoldPass unions).Ends g o :=
  h.assoc.bind_left fun _ => refoldAll_cons hf

/-! ## Ending -/

/-- Both ways through the worklists end as the bounded loop does, if `fuel` is enough for the work
there is. -/
def EndWithin (fuel : Nat) : Prop := ∀ g : EGraph, g.Coherent → g.work ≤ fuel → ∀ unions,
  (pass unions).Ends g (EGraph.drain fuel .congruence unions g) ∧
    (refoldPass unions).Ends g (EGraph.drain fuel .constants unions g)

variable {fuel : Nat} {stage : Stage}

/-- A repair, and all that follows it. -/
theorem EndWithin.repair (ih : EndWithin fuel) (h : g.Coherent) (hw : g.work ≤ fuel + 1)
    (hp : g.pending = u :: rest)
    (htake : takeUsage stage g = some (.congruence, u, { g with pending := rest }))
    (unions : Nat) : (pass unions).Ends g (EGraph.drain (fuel + 1) stage unions g) := by
  obtain ⟨hcoheres, hless⟩ := repair_coherent h hp
  rw [drain_succ, htake]
  refine pass_cons hp ((repair_ends h hp).bind_bounded fun joined g' hstep => ?_)
  have hless' := hless joined g' hstep
  rw [hstep] at hcoheres
  exact (ih g' hcoheres.1 (by omega) _).1

/-- An evaluation, and all that follows it. -/
theorem EndWithin.refold (ih : EndWithin fuel) (h : g.Coherent) (hw : g.work ≤ fuel + 1)
    (hf : g.foldPending = u :: rest)
    (htake : takeUsage stage g = some (.constants, u, { g with foldPending := rest }))
    (unions : Nat) : (refoldPass unions).Ends g (EGraph.drain (fuel + 1) stage unions g) := by
  obtain ⟨hcoheres, hless⟩ := refold_coherent h hf
  rw [drain_succ, htake]
  refine refoldPass_cons hf ((refold_ends h).bind_bounded fun _ g' hstep => ?_)
  have hless' := hless g' hstep
  rw [hstep] at hcoheres
  exact (ih g' hcoheres.1 (by omega) _).2

/-- **The loops** end within any bound on the work. -/
theorem endWithin (fuel : Nat) : EndWithin fuel := by
  have hnil : ∀ {g : EGraph} (fuel unions : Nat) (stage : Stage), g.pending = [] →
      g.foldPending = [] → (refoldPass unions).Ends g (EGraph.drain fuel stage unions g) := by
    intro g fuel unions stage hp hf
    rw [drain_of_nil hp hf]
    exact .bind (refoldAll_nil hf) (drain_nil hp hf unions)
  induction fuel with
  | zero =>
    intro g h hw unions
    obtain ⟨hp, hf⟩ := eq_nil_of_work_eq_zero (Nat.le_zero.1 hw)
    exact ⟨pass_nil hp (hnil _ _ _ hp hf), hnil _ _ _ hp hf⟩
  | succ fuel ih =>
    intro g h hw unions
    cases hp : g.pending with
    | nil =>
      cases hf : g.foldPending with
      | nil => exact ⟨pass_nil hp (hnil _ _ _ hp hf), hnil _ _ _ hp hf⟩
      | cons u rest =>
        exact ⟨pass_nil hp (ih.refold h hw hf (by simp [takeUsage, hp, hf]) unions),
          ih.refold h hw hf (by simp [takeUsage, hp, hf]) unions⟩
    | cons v later =>
      refine ⟨ih.repair h hw hp (by simp [takeUsage, hp]) unions, ?_⟩
      cases hf : g.foldPending with
      | nil =>
        exact refoldPass_nil hf (ih.repair h hw hp (by simp [takeUsage, hp, hf]) unions)
      | cons u rest => exact ih.refold h hw hf (by simp [takeUsage, hp, hf]) unions

/-- **A rebuild** ends as the bounded one does. -/
theorem rebuild_ends (h : g.Coherent) : rebuild.Ends g (EGraph.rebuild g) := by
  rw [rebuild_eq]
  have hdrain := drain_of_pass (endWithin g.work g h (Nat.le_refl _) 0).1
  exact hdrain.bind_bounded fun unions _ _ => .after_modify (.of_pure unions _)

end EqSat.Open
