import EqSat.Proofs.Embedding

/-!
# What a round enters

A round that runs into no limit enters the right sides of all the matches that it has found, but for
those that a guard refuses, each in the class of its match.  It enters no more than that: where
another graph has the nodes of this one, and the right sides as well, the round succeeds, and that
graph has the nodes of the new one.  So what a round makes of a graph is determined, up to the names
of the classes, by what is found in it.

    round_present             a round enters all right sides
    round_least               and nothing that they do not ask for
    saturateOnce_of_present   where they are there, a round changes nothing
-/

namespace EqSat

open EGraph

variable {D : Type} {I : Meaning D} {V : D → Prop} {g g' : EGraph} {o : Origin D}
  {rules : List Rule} {rule : Rule} {m : Match} {nodeLimit index : Nat} {it : Iteration}
  {f : ClassId → ClassId}

/-! ## The sizes that are checked -/

namespace EGraph

/-- The sizes of the graph that are compared with the limit while rules are applied: one after each
rule that has matches. -/
def appliedSizes (nodeLimit : Nat) : List (Rule × List Match) → EGraph → List Nat
  | [], _ => []
  | (rule, ms) :: rest, g =>
    if ms.isEmpty then appliedSizes nodeLimit rest g
    else match rule.applyAll ms g with
      | .ok _ g' => g'.numNodes ::
        if g'.numNodes > nodeLimit then [] else appliedSizes nodeLimit rest g'
      | .error _ _ => []

/-- The sizes that are compared with the limit in one round. -/
def roundSizes (nodeLimit : Nat) (rules : List Rule) (g : EGraph) : List Nat :=
  appliedSizes nodeLimit (rules.map fun r => (r, r.search g)) g

end EGraph

/-! ## Applying rules -/

namespace Rule

/-- The guard refuses the match. -/
def Barred (g : EGraph) (r : Rule) (m : Match) : Prop :=
  ∃ guard ∈ r.guard, guard.passes g m.2 = false

/-- A guard refuses for good, as what is known stays known. -/
theorem Barred.later {new : ENode → Prop} (h : rule.Barred g m) (hext : Extends new g o g' o') :
    rule.Barred g' m := by
  obtain ⟨⟨condition, x⟩, hguard, hrefused⟩ := h
  refine ⟨⟨condition, x⟩, hguard, ?_⟩
  cases condition with
  | isNotZero =>
    rw [Guard.passes, Condition.holds] at hrefused ⊢
    split at hrefused
    · next k hk =>
      rw [hext.const _ k hk]
      exact hrefused
    · cases hrefused

theorem Barred.guard_ne_none (h : rule.Barred g m) : rule.guard ≠ none := by
  obtain ⟨guard, hguard, -⟩ := h
  rintro hnone
  rw [hnone] at hguard
  cases hguard

/-- A match that is barred has no effect. -/
theorem Barred.applyMatch (h : rule.Barred g m) : rule.applyMatch m g = .ok false g := by
  obtain ⟨guard, hguard, hrefused⟩ := h
  have hall : rule.guard.all (·.passes g m.2) = false := by
    rw [Option.mem_def.1 hguard, Option.all_some, hrefused]
  rw [applyMatch_eq, hall, if_neg Bool.false_ne_true]

/-- The right side has the value of the class of the match, or the guard refuses. -/
def Allowed (I : Meaning D) (g : EGraph) (o : Origin D) (r : Rule) (m : Match) : Prop :=
  r.Justified I g o m ∨ r.Barred g m

theorem Allowed.later {new : ENode → Prop} (h : rule.Allowed I g o m)
    (hext : Extends new g o g' o') : rule.Allowed I g' o' m :=
  h.imp (·.later hext) (·.later hext)

end Rule

/-- All matches are allowed. -/
def AllAllowed (I : Meaning D) (g : EGraph) (o : Origin D) (found : List (Rule × List Match)) :
    Prop := ∀ f ∈ found, ∀ m ∈ f.2, f.1.Allowed I g o m

/-- The right sides of all matches of rules without guards stand in the classes of the matches. -/
def AllEntered (g : EGraph) (o : Origin D) (found : List (Rule × List Match)) : Prop :=
  ∀ f ∈ found, f.1.guard = none → ∀ m ∈ f.2, f.1.rhs.Entered g o m.2 m.1

theorem Rule.applyMatch_endsWith (hV : I.Inherits V) (h : Valid I g o) (hc : g.Confined V o)
    (hm : rule.Allowed I g o m) :
    EndsWith I (fun g' o' => g'.Confined V o' ∧
      (rule.guard = none → rule.rhs.Entered g' o' m.2 m.1)) g o (rule.applyMatch m g) := by
  rcases hm with hjust | hbarred
  · rcases applyMatch_cases h hjust with ⟨joined, g', o', hrun, hg, hentered⟩ |
      ⟨e, g', o', hrun, hlawful, hext, hclash⟩
    · rw [hrun]
      exact ⟨o', hg.valid, ⟨hg.confined V hV hc, hentered⟩, hg.extended.mono fun _ _ => trivial⟩
    · rw [hrun]
      exact ⟨o', hlawful, hext.mono fun _ _ => trivial, hclash⟩
  · rw [hbarred.applyMatch]
    exact .pure h ⟨hc, fun hnone => absurd hnone hbarred.guard_ne_none⟩

/-- **Applying a rule** makes the right sides of its matches stand, if it has no guard, and brings
no values of another kind into the graph. -/
theorem Rule.applyFrom_endsWith (hV : I.Inherits V) (ms : List Match) (joined : Nat)
    (h : Valid I g o) (hc : g.Confined V o) (hms : ∀ m ∈ ms, rule.Allowed I g o m) :
    EndsWith I (fun g' o' => g'.Confined V o' ∧
      (rule.guard = none → ∀ m ∈ ms, rule.rhs.Entered g' o' m.2 m.1)) g o
      (rule.applyFrom ms joined g) := by
  induction ms generalizing joined g o with
  | nil => exact .pure h ⟨hc, fun _ m hm => by cases hm⟩
  | cons m ms ih =>
    refine (applyMatch_endsWith hV h hc (hms m List.mem_cons_self)).bind
      fun changed g₁ o₁ _ hv₁ ⟨hc₁, hentered⟩ hext => ?_
    have hrest : ∀ m' ∈ ms, rule.Allowed I g₁ o₁ m' := fun m' hm' =>
      (hms m' (List.mem_cons_of_mem _ hm')).later hext
    refine (ih _ hv₁ hc₁ hrest).imp fun g₂ o₂ hv₂ ⟨hc₂, hall⟩ hext' =>
      ⟨hc₂, fun hnone m' hm' => ?_⟩
    rcases List.mem_cons.1 hm' with rfl | hm'
    · exact (hentered hnone).later hv₁.shape hv₂.shape hext'
    · exact hall hnone m' hm'

/-- **Applying rules** makes the right sides stand, if no size that is checked is over the limit. -/
theorem applyFound_endsWith (hV : I.Inherits V) (nodeLimit : Nat) (found : List (Rule × List Match))
    (applied : Tally) (h : Valid I g o) (hc : g.Confined V o) (hfound : AllAllowed I g o found) :
    EndsWith I (fun g' o' => g'.Confined V o' ∧
      ((∀ k ∈ appliedSizes nodeLimit found g, k ≤ nodeLimit) → AllEntered g' o' found)) g o
      (applyFound nodeLimit found applied g) := by
  induction found generalizing applied g o with
  | nil => exact .pure h ⟨hc, fun _ f hf => by cases hf⟩
  | cons f rest ih =>
    obtain ⟨rule, ms⟩ := f
    have hallowed : ∀ m ∈ ms, rule.Allowed I g o m := hfound _ List.mem_cons_self
    cases hempty : ms.isEmpty with
    | true =>
      rw [applyFound, appliedSizes, hempty]
      refine (ih applied h hc fun f hf => hfound f (List.mem_cons_of_mem _ hf)).imp
        fun g' o' _ hrest _ => ?_
      obtain ⟨hc', hall⟩ := hrest
      refine ⟨hc', fun hsizes f hf => ?_⟩
      rcases List.mem_cons.1 hf with rfl | hf
      · rw [List.isEmpty_iff.1 hempty]
        exact fun _ m hm => by cases hm
      · exact hall hsizes f hf
    | false =>
      rw [applyFound_cons _ _ _ _ _ hempty]
      refine (rule.applyFrom_endsWith hV ms 0 h hc hallowed).bind
        fun joined g₁ o₁ hrun hv₁ hone hext => ?_
      obtain ⟨hc₁, hentered⟩ := hone
      have hrun' : rule.applyAll ms g = .ok joined g₁ := hrun
      have hsizes₁ : appliedSizes nodeLimit ((rule, ms) :: rest) g = g₁.numNodes ::
          if g₁.numNodes > nodeLimit then [] else appliedSizes nodeLimit rest g₁ := by
        rw [appliedSizes, hempty, hrun']
        rfl
      rw [hsizes₁]
      show EndsWith I _ g₁ o₁ ((if g₁.numNodes > nodeLimit then return _
        else applyFound nodeLimit rest _ : Update Tally) g₁)
      by_cases hfull : g₁.numNodes > nodeLimit
      · rw [if_pos hfull, if_pos hfull]
        refine .pure hv₁ ⟨hc₁, fun hsizes => ?_⟩
        exact absurd (hsizes _ List.mem_cons_self) (Nat.not_le_of_gt hfull)
      · rw [if_neg hfull, if_neg hfull]
        refine (ih _ hv₁ hc₁ fun f hf m hm =>
          (hfound f (List.mem_cons_of_mem _ hf) m hm).later hext).imp
          fun g₂ o₂ hv₂ hrest hext' => ?_
        obtain ⟨hc₂, hall⟩ := hrest
        refine ⟨hc₂, fun hsizes f hf hnone m hm => ?_⟩
        rcases List.mem_cons.1 hf with rfl | hf
        · exact (hentered hnone m hm).later hv₁.shape hv₂.shape hext'
        · exact hall (fun k hk => hsizes k (List.mem_cons_of_mem _ hk)) f hf hnone m hm

/-! ## Rounds -/

theorem rebuild_endsWith (h : Valid I g o) :
    EndsWith I (fun g' o' => Tidy g' ∧ Extends (fun _ => False) g o g' o') g o (rebuild g) := by
  rcases rebuild_spec h fun _ => False with ⟨n, g', o', hrun, hv, htidy, hext⟩ |
    ⟨e, g', o', hrun, hlawful, hext, hclash⟩
  · rw [hrun]
    exact ⟨o', hv, ⟨htidy, hext⟩, hext.mono fun _ h => h.elim⟩
  · rw [hrun]
    exact ⟨o', hlawful, hext.mono fun _ h => h.elim, hclash⟩

/-- **A round** of matches that are allowed leaves a tidy graph, or ends with a clash. -/
theorem saturateOnce_endsWith (hV : I.Inherits V) (h : Valid I g o) (hc : g.Confined V o)
    (hallowed : ∀ r ∈ rules, ∀ m ∈ r.search g, r.Allowed I g o m) (nodeLimit index : Nat) :
    EndsWith I (fun g' o' => Tidy g' ∧ g'.Confined V o' ∧
      ((∀ k ∈ roundSizes nodeLimit rules g, k ≤ nodeLimit) →
        ∀ r ∈ rules, r.guard = none → ∀ m ∈ r.search g, r.rhs.Entered g' o' m.2 m.1)) g o
      (saturateOnce rules nodeLimit index g) := by
  have hfound : AllAllowed I g o (rules.map fun r => (r, r.search g)) := by
    intro f hf
    obtain ⟨r, hr, rfl⟩ := List.mem_map.1 hf
    exact hallowed r hr
  rw [saturateOnce_eq]
  refine (applyFound_endsWith hV nodeLimit _ [] h hc hfound).bind
    fun applied g₁ o₁ _ hv₁ ⟨hc₁, hall⟩ _ => ?_
  refine (rebuild_endsWith hv₁).bind fun unions g₂ o₂ _ hv₂ ⟨htidy, hext⟩ _ => ?_
  refine .pure hv₂ ⟨htidy, hext.confined hv₂.sound hc₁, fun hsizes r hr hnone m hm => ?_⟩
  exact (hall hsizes (r, r.search g) (List.mem_map.2 ⟨r, hr, rfl⟩) hnone m hm).later hv₁.shape
    hv₂.shape hext

/-- **A round enters** all right sides, if no size that it checks is over the limit. -/
theorem round_present (h : InOrder g) (hguards : ∀ r ∈ rules, r.guard = none)
    (hsizes : ∀ k ∈ roundSizes nodeLimit rules g, k ≤ nodeLimit)
    (hrun : saturateOnce rules nodeLimit index g = .ok it g') :
    InOrder g' ∧ Embeds g'.find g g' ∧
      ∀ r ∈ rules, ∀ m ∈ r.search g, r.rhs.Present g' m.2 (g'.find m.1) := by
  obtain ⟨-, o, hv⟩ := h
  have hjust : ∀ r ∈ rules, ∀ m ∈ r.search g,
      r.Justified (anyMeaning .constantFolding) g o m := by
    intro r _ m hm
    have hinst := Pattern.search_spec hv.toLawful hm
    exact ⟨hinst.lt, fun x hx => hinst.binds x (r.rhs_bound x hx),
      r.rhs.means_anyMeaning .constantFolding _ _⟩
  have hends := saturateOnce_endsWith (V := fun _ => True) (fun _ _ _ _ _ _ => trivial) hv
    (fun _ _ => trivial) (fun r hr m hm => .inl (hjust r hr m hm)) nodeLimit index
  rw [hrun] at hends
  obtain ⟨o', hv', ⟨htidy, -, hall⟩, hext⟩ := hends
  exact ⟨⟨htidy, o', hv'⟩, embeds_of_extends hv hv' htidy.pending hext,
    fun r hr m hm => (hall hsizes r hr (hguards r hr) m hm).present hv' htidy.pending⟩

/-- **A round enters no more** than that: where a graph has what this one has, and the right sides,
it has what becomes of this one. -/
theorem round_least (h : InOrder g) (h' : InOrder g')
    (he : Embeds f g g') (hpresent : ∀ r ∈ rules, ∀ m ∈ r.search g,
      r.rhs.Over (fun n c => g'.lookup n = some c) (fun x => f (m.2.get x)) (f m.1))
    (nodeLimit index : Nat) : ∃ it g₁ f₁, saturateOnce rules nodeLimit index g = .ok it g₁ ∧
      InOrder g₁ ∧ Embeds f₁ g₁ g' ∧ ∀ i, i < g.size → f₁ i = f i := by
  obtain ⟨o, hv, hvalue⟩ := he.valid h h'
  have hjust : ∀ r ∈ rules, ∀ m ∈ r.search g, r.Justified h'.reading g o m := by
    intro r hr m hm
    have hinst := Pattern.search_spec hv.toLawful hm
    refine ⟨hinst.lt, fun x hx => hinst.binds x (r.rhs_bound x hx), ?_⟩
    simp only [hvalue]
    exact h'.reads.means_iff.2 (hpresent r hr m hm)
  have hends := saturateOnce_endsWith h'.reads.inherits hv (fun i _ => ⟨f i, hvalue i⟩)
    (fun r hr m hm => .inl (hjust r hr m hm)) nodeLimit index
  cases hrun : saturateOnce rules nodeLimit index g with
  | error e g₁ =>
    rw [hrun] at hends
    obtain ⟨-, -, -, hclash⟩ := hends
    exact absurd hclash (h'.reads.no_clash e)
  | ok it g₁ =>
    rw [hrun] at hends
    obtain ⟨o₁, hv₁, ⟨htidy, hc₁, -⟩, hext⟩ := hends
    choose! f₁ hf₁ using hc₁
    refine ⟨it, g₁, f₁, rfl, ⟨htidy, _, hv₁.map (coarser_anyMeaning _)⟩, embeds_of_valid h' hv₁ hf₁,
      fun i hi => ?_⟩
    have hvalue₁ := hext.value i hi
    rw [hf₁ i (Nat.lt_of_lt_of_le hi hext.size_le), hvalue i] at hvalue₁
    exact Sum.inl_injective hvalue₁

/-! ## Rounds without effect -/

theorem union_of_find_eq (hs : g.Shape) {a b : ClassId} (ha : a < g.size) (hb : b < g.size)
    (hab : g.find a = g.find b) : union a b g = .ok false g := by
  rcases merge_cases hs ha hb with ⟨-, hrun⟩ | ⟨x, y, hapart, -, hsides, -⟩
  · show (merge a b >>= fun joined =>
      if joined then do settle a; return true else return false : Update Bool) g = _
    rw [bind_ok hrun]
    rfl
  · rcases hsides with ⟨hx, hy⟩ | ⟨hx, hy⟩
    · exact absurd (hx.trans (hab.trans hy.symm)) hapart.ne
    · exact absurd (hx.trans (hab.symm.trans hy.symm)) hapart.ne

/-- A match whose right side is there has no effect. -/
theorem Rule.applyMatch_of_present (hguard : rule.guard = none) (hs : g.Shape) (hm : m.1 < g.size)
    (h : rule.rhs.Present g m.2 (g.find m.1)) : rule.applyMatch m g = .ok false g := by
  rw [applyMatch_eq, hguard, Option.all_none, if_pos rfl, bind_ok (build_of_present h)]
  exact union_of_find_eq hs hm (find_lt hs hm) (find_find hs m.1).symm

theorem Rule.applyFrom_of_present (hguard : rule.guard = none) (hs : g.Shape) (ms : List Match)
    (joined : Nat) (h : ∀ m ∈ ms, m.1 < g.size ∧ rule.rhs.Present g m.2 (g.find m.1)) :
    rule.applyFrom ms joined g = .ok joined g := by
  induction ms with
  | nil => rfl
  | cons m ms ih =>
    obtain ⟨hlt, hm⟩ := h m List.mem_cons_self
    show (rule.applyMatch m >>= fun changed =>
      rule.applyFrom ms (if changed then joined + 1 else joined)) g = _
    rw [bind_ok (applyMatch_of_present hguard hs hlt hm)]
    exact ih fun m' hm' => h m' (List.mem_cons_of_mem _ hm')

theorem applyFound_of_present (hs : g.Shape) (found : List (Rule × List Match)) (applied : Tally)
    (h : ∀ f ∈ found, f.1.guard = none ∧
      ∀ m ∈ f.2, m.1 < g.size ∧ f.1.rhs.Present g m.2 (g.find m.1)) :
    ∃ applied', applyFound nodeLimit found applied g = .ok applied' g := by
  induction found generalizing applied with
  | nil => exact ⟨applied, rfl⟩
  | cons f rest ih =>
    obtain ⟨rule, ms⟩ := f
    obtain ⟨hguard, hms⟩ := h _ List.mem_cons_self
    have hrest := fun applied => ih applied fun f hf => h f (List.mem_cons_of_mem _ hf)
    cases hempty : ms.isEmpty with
    | true =>
      rw [applyFound, hempty]
      exact hrest applied
    | false =>
      rw [applyFound_cons _ _ _ _ _ hempty,
        bind_ok (show rule.applyAll ms g = .ok 0 g from
          rule.applyFrom_of_present hguard hs ms 0 hms)]
      show ∃ applied', (if g.numNodes > nodeLimit then return _
        else applyFound nodeLimit rest _ : Update Tally) g = .ok applied' g
      split
      · exact ⟨_, rfl⟩
      · exact hrest _

/-- **Where the right sides are there**, a round changes nothing. -/
theorem saturateOnce_of_present (h : Steady .constantFolding g) (hclean : g.clean = true)
    (hguards : ∀ r ∈ rules, r.guard = none)
    (hpresent : ∀ r ∈ rules, ∀ m ∈ r.search g, r.rhs.Present g m.2 (g.find m.1)) :
    ∃ it, saturateOnce rules nodeLimit index g = .ok it g := by
  have hfound : ∀ f ∈ rules.map fun r => (r, r.search g), f.1.guard = none ∧
      ∀ m ∈ f.2, m.1 < g.size ∧ f.1.rhs.Present g m.2 (g.find m.1) := by
    intro f hf
    obtain ⟨r, hr, rfl⟩ := List.mem_map.1 hf
    exact ⟨hguards r hr, fun m hm => ⟨(h.fits hm).lt, hpresent r hr m hm⟩⟩
  obtain ⟨applied, happ⟩ := applyFound_of_present h.1.backed.shape _ [] hfound
  rw [saturateOnce_eq, bind_ok happ, bind_ok (h.1.orderly.rested.rebuild hclean)]
  exact ⟨_, rfl⟩

end EqSat
