import EqSat.Proofs.Indexed

/-!
# Calls keep reachable graphs coherent

Every call leads from a coherent graph to a coherent one, whether or not constants conflict, and
a rebuild that succeeds has nothing left to do.  Two constants conflict only where both are known,
and they are different.

    merge_indexed       a join, which may leave one class to be settled
    union_coherent      two classes become one, or two known constants differ
    rebuild_coherent    the worklists are emptied, or constants conflict
-/

namespace EqSat.EGraph

variable {g g' : EGraph} {u : Usage} {x y c : EClass} {a b id : ClassId} {n : ENode}
  {k : Constant} {rest : List Usage} {stage : Stage}

/-! ## Joining -/

/-- What a join of `a` and `b` makes of a graph. -/
structure Merged (g : EGraph) (a b : ClassId) (g' : EGraph) : Prop where
  indexed : g'.Indexed
  recalled : g'.Recalled
  ongoing : Ongoing g g'
  memo : g'.memo = g.memo
  unchanged : g.find a = g.find b → g' = g
  counts : g.find a ≠ g.find b → g'.clean = false ∧ g.unionCount < g'.unionCount
  find_eq : g'.find a = g'.find b
  settled : ∀ p, g.SettledBut p → (∀ id, p id → id = g.find a ∨ id = g.find b) →
    g'.SettledBut (· = g'.find a)
  work_le : g'.work ≤ g.work
  work_add_le : ∀ c, g.classAt? b = some c → g.find a ≠ g.find b →
    g.constantAt? a = g.constantAt? b → g'.work + 2 * (2 * g.usages + 1) ≤ g.work + c.parents.size

/-- Two different constants are known of the classes. -/
def Differ (g : EGraph) (a b : ClassId) (e : Conflict) : Prop :=
  e.left ≠ e.right ∧ ((g.constantAt? a = some e.left ∧ g.constantAt? b = some e.right) ∨
    (g.constantAt? a = some e.right ∧ g.constantAt? b = some e.left))

theorem Differ.alike {e : Conflict} (h : g.Differ a b e) : g.Alike a b := by
  obtain ⟨-, ⟨ha, hb⟩ | ⟨ha, hb⟩⟩ := h <;> exact .inr ⟨by simp [ha], by simp [hb]⟩

theorem not_differ (ha : g.constantAt? a = some k) (hb : g.constantAt? b = some k) (e : Conflict) :
    ¬g.Differ a b e := by
  rintro ⟨hne, hdata⟩
  rw [ha, hb] at hdata
  simp only [Option.some.injEq] at hdata
  rcases hdata with ⟨hl, hr⟩ | ⟨hr, hl⟩
  · exact hne (hl.symm.trans hr)
  · exact hne (hl.symm.trans hr)

theorem merged_of_find_eq (h : g.Indexed) (hab : g.find a = g.find b)
    (hr : g.RecalledUpTo a b) : Merged g a b g where
  indexed := h
  recalled := hr.recalled (.inl hab)
  ongoing := .refl
  memo := rfl
  unchanged := fun _ => rfl
  counts := fun hne => absurd hab hne
  find_eq := hab
  settled := fun _ hp hpab => settledBut_mono hp fun id hid =>
    (hpab id hid).elim (fun h => h) fun h => h.trans hab.symm
  work_le := Nat.le_refl _
  work_add_le := fun _ _ hne => absurd hab hne

theorem merged_absorb {k : Option Constant} (h : g.Indexed) (hxy : g.Apart x y)
    (hsize : y.parents.size ≤ x.parents.size) (hab : g.Sides x y a b)
    (hk : mergeConstants x.data y.data = .ok k) (hr : g.RecalledUpTo a b) :
    Merged g a b (g.absorb x.id y k) where
  indexed := indexed_absorb h hxy hk
  recalled := recalled_absorb h hxy hk hab hr
  ongoing := ongoing_absorb h.shape hxy hk
  memo := rfl
  unchanged := fun hfind => absurd hfind (hab.find_ne hxy)
  counts := fun _ => ⟨rfl, Nat.lt_succ_self _⟩
  find_eq := hab.find_absorb_eq h.shape hxy
  settled := fun _ hp hpab => hab.settledBut h.shape hxy hp hpab
  work_le := Nat.le_of_lt (work_absorb_lt hxy hk)
  work_add_le := fun _ hc _ hconst => hab.work_add_le h.shape hxy hsize hk hc hconst

/-- **A join** succeeds, or two different constants are known and nothing has changed. -/
theorem merge_indexed (h : g.Indexed) (ha : a < g.size) (hb : b < g.size)
    (hr : g.RecalledUpTo a b) :
    (∃ g', merge a b g = .ok (decide (g.find a ≠ g.find b)) g' ∧ Merged g a b g') ∨
    ∃ e, merge a b g = .error e g ∧ g.Differ a b e := by
  rcases merge_cases h.shape ha hb with ⟨hab, hm⟩ | ⟨x, y, hxy, hsize, hab, hm⟩
  · exact .inl ⟨g, by rw [hm]; simp [hab], merged_of_find_eq h hab hr⟩
  · rcases mergeInto_cases x y g with ⟨k, hk, hinto⟩ | ⟨l, r, hl, hr', hne, hinto⟩
    · refine .inl ⟨_, ?_, merged_absorb h hxy hsize hab hk hr⟩
      rw [hm, hinto]
      simp [hab.find_ne hxy]
    · exact .inr ⟨_, by rw [hm, hinto], hne, hab.constants h.shape hxy hl hr'⟩

/-! ## Settling -/

/-- The class `j` holds the leaf of `k`, in a graph that may have grown by that leaf. -/
structure Provided (g : EGraph) (k : Constant) (j : ClassId) (g' : EGraph) : Prop where
  indexed : g'.Indexed
  recalled : g'.Recalled
  ongoing : Ongoing g g'
  find_eq : ∀ i, g'.find i = g.find i
  leaf : .leaf (.const k) ∈ g'.nodesAt j
  settled : ∀ p, g.SettledBut p → g'.SettledBut fun id => p id ∨ id = g'.find j
  work : g' = g ∨ (g.size ≤ j ∧ g'.find j = j ∧ g'.work = g.work + 2 * (2 * g'.usages + 1) ∧
    ∃ c, g'.classAt? j = some c ∧ c.parents.size = 0)

theorem intern_provides (h : g.Indexed) (hr : g.Recalled) (ha : g.analysis = .constantFolding)
    (k : Constant) : ∃ j g', intern (.leaf (.const k)) g = .ok j g' ∧ Provided g k j g' := by
  have hs := h.shape
  cases hj : g.memo[(Node.leaf (.const k) : ENode)]? with
  | some j =>
    refine ⟨g.find j, g, by rw [intern_eq, hj]; rfl, h, hr, .refl, fun _ => rfl, ?_,
      fun p hp => settledBut_mono hp fun _ => .inl, .inl rfl⟩
    rw [nodesAt_of_find_eq (find_find hs j)]
    exact h.leaf _ j hj
  | none =>
    have hfresh : g.Fresh (.leaf (.const k)) := ⟨rfl, by simp [Node.children], hj⟩
    have hfind : (g.enter (.leaf (.const k))).find g.size = g.size := find_enter_size hs
    refine ⟨g.size, g.enter (.leaf (.const k)), by rw [intern_eq, hj]; rfl,
      indexed_enter h hfresh, recalled_enter h hr hfresh, ongoing_enter hs, find_enter hs, ?_, ?_,
      .inr ⟨Nat.le_refl _, hfind, work_enter_const ha, _,
        classAt_of_stored (shape_enter hs) (stored_enter_size hs hfresh.child_lt), rfl⟩⟩
    · rw [nodesAt_enter_size hs hfresh.child_lt]
      exact List.mem_singleton_self _
    · intro p hp
      rw [hfind]
      exact settledBut_enter hs hj hp

/-- A leaf of one of the classes is listed after the join. -/
theorem Merged.leaf_mem {l : Leaf} (h : Merged g a b g') (hi : g.Indexed)
    (hl : .leaf l ∈ g.nodesAt b) : .leaf l ∈ g'.nodesAt a := by
  obtain ⟨i, hi, hib⟩ := hi.found b l hl
  have hmemo : g'.memo[(.leaf l : ENode)]? = some i := by
    rw [h.memo]
    exact hi
  rw [nodesAt_of_find_eq (h.find_eq.trans (h.ongoing.find _ _ hib).symm)]
  exact h.indexed.leaf l i hmemo

/-- Pruning mends a class of known constant that lists the leaf of the constant. -/
theorem coherent_prune (h : g.Indexed) (hr : g.Recalled) (hs : g.SettledBut (· = g.find id))
    (hk : g.constantAt? id = some k) (hleaf : .leaf (.const k) ∈ g.nodesAt id) :
    (g.modifyClass (g.find id) EClass.prune).Coherent ∧
      Ongoing g (g.modifyClass (g.find id) EClass.prune) ∧
      (g.modifyClass (g.find id) EClass.prune).work = g.work := by
  obtain ⟨c, hc, hmem⟩ := mem_nodesAt.1 hleaf
  rw [classAt?] at hc
  have hck : c.data = some k := by
    rw [← constantAt_of_stored h.shape hc, constantAt_find h.shape, hk]
  have hne : c.data ≠ none := by simp [hck]
  exact ⟨⟨indexed_prune h hc hne ⟨_, hleaf, rfl⟩, recalled_prune h.shape hr hc hne,
    settled_prune hs hc hck (h.found id _ hleaf) hmem⟩, ongoing_prune h.shape hc hne, work_prune hc⟩

/-- A class that is known to be a constant belongs to a graph that folds constants. -/
theorem Indexed.constantFolding_of_known (h : g.Indexed) (hk : g.constantAt? id = some k) :
    g.analysis = .constantFolding := by
  cases hana : g.analysis with
  | constantFolding => rfl
  | empty =>
    rw [h.unknown hana id] at hk
    cases hk

/-- A class of known constant is joined with the leaf of the constant, which is known to be that
constant, too. -/
theorem exists_merge_leaf (h : g.Indexed) (hr : g.Recalled) (hid : id < g.size)
    (hk : g.constantAt? id = some k) : ∃ j g₁ g₂,
      intern (.leaf (.const k)) g = .ok j g₁ ∧ Provided g k j g₁ ∧ g₁.constantAt? id = some k ∧
      g₁.constantAt? j = some k ∧ merge id j g₁ = .ok (decide (g₁.find id ≠ g₁.find j)) g₂ ∧
      Merged g₁ id j g₂ := by
  have ha := h.constantFolding_of_known hk
  obtain ⟨j, g₁, hintern, hp⟩ := intern_provides h hr ha k
  have hj : g₁.constantAt? j = some k := hp.indexed.const (hp.ongoing.analysis.trans ha) j k hp.leaf
  have hconst : g₁.constantAt? id = some k := hp.ongoing.const id k hk
  obtain ⟨g₂, hmerge, hm⟩ := (merge_indexed hp.indexed
    (Nat.lt_of_lt_of_le hid hp.ongoing.size_le) (lt_of_mem_nodesAt hp.indexed.shape hp.leaf)
    (hp.recalled.upTo id j)).resolve_right fun ⟨e, _, he⟩ => not_differ hconst hj e he
  exact ⟨j, g₁, g₂, hintern, hp, hconst, hj, hmerge, hm⟩

/-- **Settling** a class never fails, mends the graph, and adds no work. -/
theorem settle_coherent (h : g.Indexed) (hr : g.Recalled) (hs : g.SettledBut (· = g.find id))
    (hid : id < g.size) : ∃ g', settle id g = .ok () g' ∧ g'.Coherent ∧ Ongoing g g' ∧
      g'.work ≤ g.work := by
  have hrun := settle_eq id g
  cases hk : g.constantAt? id with
  | none =>
    rw [hk] at hrun
    refine ⟨g, hrun, ⟨h, hr, ?_⟩, .refl, Nat.le_refl _⟩
    intro j c k _ hc hck
    refine hs j c k ?_ hc hck
    rintro rfl
    rw [← constantAt_find h.shape, constantAt_of_stored h.shape hc, hck] at hk
    cases hk
  | some k =>
    rw [hk] at hrun
    obtain ⟨j, g₁, g₂, hintern, hp, hconst, hj, hmerge, hm⟩ := exists_merge_leaf h hr hid hk
    have hsettled : g₂.SettledBut (· = g₂.find id) := by
      refine hm.settled _ (hp.settled _ hs) fun i hi => hi.imp_left fun e => ?_
      rw [e, hp.find_eq]
    obtain ⟨hcoherent, hon, hwork⟩ := coherent_prune hm.indexed hm.recalled hsettled
      (hm.ongoing.const id k hconst) (hm.leaf_mem hp.indexed hp.leaf)
    refine ⟨_, ?_, hcoherent, hp.ongoing.trans (hm.ongoing.trans hon), ?_⟩
    · rw [hrun]
      show (intern (.leaf (.const k)) >>= _) g = _
      rw [bind_ok hintern, bind_ok hmerge]
      rfl
    · rw [hwork]
      rcases hp.work with rfl | ⟨hlt, hjj, hwork₁, d, hd, hd0⟩
      · exact hm.work_le
      · -- the class of the leaf is new, and the join gives back what entering it has cost
        have hne : g₁.find id ≠ g₁.find j := by
          rw [hp.find_eq, hjj]
          exact Nat.ne_of_lt (Nat.lt_of_lt_of_le (find_lt h.shape hid) hlt)
        have hle := hm.work_add_le d hd hne (hconst.trans hj.symm)
        omega

/-! ## Adding and uniting -/

/-- Nothing has changed, or the graph is not clean and has more ids or joins than before. -/
def Stirred (g g' : EGraph) : Prop :=
  g' = g ∨ (g'.clean = false ∧ g.size + g.unionCount < g'.size + g'.unionCount)

/-- **Adding** a node never fails. -/
theorem add_coherent (h : g.Coherent) (hn : ∀ a ∈ n.children, a < g.size) :
    ∃ id g', add n g = .ok id g' ∧ g'.Coherent ∧ Ongoing g g' ∧ Stirred g g' := by
  have hs := h.shape
  rw [add_eq]
  cases hm : g.memo[g.canonicalize n]? with
  | some j => exact ⟨g.find j, g, rfl, h, .refl, .inl rfl⟩
  | none =>
    have hfresh := fresh_canonicalize hs hn hm
    have hlt : g.size < (g.enter (g.canonicalize n)).size := size_lt_enter
    have hsettled : (g.enter (g.canonicalize n)).SettledBut
        (· = (g.enter (g.canonicalize n)).find g.size) := by
      rw [find_enter_size hs]
      exact settledBut_mono (settledBut_enter hs hm h.settled) fun _ hid => hid.resolve_left id
    obtain ⟨g', hrun, hc, hon, -⟩ := settle_coherent (indexed_enter h.toIndexed hfresh)
      (recalled_enter h.toIndexed h.recalled hfresh) hsettled hlt
    refine ⟨g'.find g.size, g', ?_, hc, (ongoing_enter hs).trans hon, .inr ⟨hon.dirty rfl, ?_⟩⟩
    · dsimp only
      rw [bind_ok hrun]
      rfl
    · exact Nat.add_lt_add_of_lt_of_le (Nat.lt_of_lt_of_le hlt hon.size_le) hon.unionCount_le

/-- What a union makes of a graph. -/
structure Unified (g : EGraph) (a b : ClassId) (g' : EGraph) : Prop where
  coherent : g'.Coherent
  ongoing : Ongoing g g'
  find_eq : g'.find a = g'.find b
  work_le : g'.work ≤ g.work
  unchanged : g.find a = g.find b → g' = g
  stirred : Stirred g g'

/-- **Uniting** makes two classes one, or two different constants are known and nothing has
changed. -/
theorem union_coherent (h : g.Indexed) (hsettled : g.Settled) (hr : g.RecalledUpTo a b)
    (ha : a < g.size) (hb : b < g.size) :
    (∃ g', union a b g = .ok (decide (g.find a ≠ g.find b)) g' ∧ Unified g a b g') ∨
    ∃ e, union a b g = .error e g ∧ g.Differ a b e := by
  have hrun : union a b g = (merge a b >>= fun joined =>
      if joined then do settle a; return true else return false) g := rfl
  rcases merge_indexed h ha hb hr with ⟨g₁, hm, hj⟩ | ⟨e, hm, he⟩
  · left
    rw [hrun, bind_ok hm]
    by_cases hab : g.find a = g.find b
    · obtain rfl := hj.unchanged hab
      exact ⟨_, by simp [hab]; rfl, ⟨h, hj.recalled, hsettled⟩, .refl, hab, Nat.le_refl _,
        fun _ => rfl, .inl rfl⟩
    · have ha₁ : a < g₁.size := Nat.lt_of_lt_of_le ha hj.ongoing.size_le
      have hs₁ := hj.settled (fun _ => False) hsettled (fun _ hf => hf.elim)
      obtain ⟨g', hset, hc, hon, hwork⟩ := settle_coherent hj.indexed hj.recalled hs₁ ha₁
      obtain ⟨hdirty, hcount⟩ := hj.counts hab
      refine ⟨g', ?_, hc, hj.ongoing.trans hon, hon.find _ _ hj.find_eq,
        Nat.le_trans hwork hj.work_le, fun h => absurd h hab, .inr ⟨hon.dirty hdirty, ?_⟩⟩
      · simp only [hab, ne_eq, not_false_eq_true, decide_true, if_true]
        rw [bind_ok hset]
        rfl
      · exact Nat.add_lt_add_of_le_of_lt (Nat.le_trans hj.ongoing.size_le hon.size_le)
          (Nat.lt_of_lt_of_le hcount hon.unionCount_le)
  · exact .inr ⟨e, by rw [hrun, bind_error hm], he⟩

/-! ## Rebuilding -/

/-- A step leads to a coherent graph, also where it fails. -/
def Coheres {α : Type} (g : EGraph) (r : EStateM.Result Conflict EGraph α) : Prop :=
  (left r).Coherent ∧ Ongoing g (left r)

theorem Coheres.from {α : Type} {r : EStateM.Result Conflict EGraph α} (h : Coheres g' r)
    (hon : Ongoing g g') : Coheres g r := ⟨h.1, hon.trans h.2⟩

theorem Coheres.bind {α β : Type} {s : Update α} {f : α → Update β} {g₀ : EGraph}
    (h : Coheres g (s g₀)) (hf : ∀ a g', g'.Coherent → Coheres g' (f a g')) :
    Coheres g ((s >>= f) g₀) := by
  cases hrun : s g₀ with
  | ok a g' =>
    rw [hrun] at h
    rw [bind_ok hrun]
    exact (hf a g' h.1).from h.2
  | error e g' =>
    rw [hrun] at h
    rw [bind_error hrun]
    exact h

/-- A repair takes the usage on top of the worklist, and leaves less work. -/
theorem repair_coherent (h : g.Coherent) (hp : g.pending = u :: rest) :
    Coheres g (repair u { g with pending := rest }) ∧
      ∀ joined g', repair u { g with pending := rest } = .ok joined g' → g'.work < g.work := by
  have hi : (g.redirect u rest).Indexed := indexed_redirect h.toIndexed hp
  have hon : Ongoing g (g.redirect u rest) := ongoing_redirect h.shape
  have hmem : u ∈ g.pending := by
    rw [hp]
    exact List.mem_cons_self
  have hsettled : (g.redirect u rest).Settled :=
    settled_redirect_of_isLeaf h.settled (h.pending u hmem)
  have hwork := work_redirect hp
  rw [repair_eq]
  cases hm : g.memo[g.canonicalize u.1]? with
  | none =>
    refine ⟨⟨⟨hi, recalled_redirect h hp hm, hsettled⟩, hon⟩, fun joined g' hrun => ?_⟩
    cases hrun
    exact hwork
  | some id =>
    have hr := recalledUpTo_redirect h hp hm
    have hid := (h.entry (g.canonicalize u.1, id) (.memo hm)).lt h.shape
    have hlt := (h.entry u (.pending hmem)).lt h.shape
    dsimp only
    rcases union_coherent hi hsettled hr hid hlt with ⟨g', hrun, hu⟩ | ⟨e, hrun, he⟩
    · rw [hrun]
      refine ⟨⟨hu.coherent, hon.trans hu.ongoing⟩, fun joined g'' hg'' => ?_⟩
      cases hg''
      exact Nat.lt_of_le_of_lt hu.work_le hwork
    · -- the two classes are known to differ, and the usage goes to the other one
      rw [hrun]
      exact ⟨⟨⟨hi, hr.recalled he.alike, hsettled⟩, hon⟩, fun joined g' hg' => by cases hg'⟩

/-- An evaluation takes the usage on top of the worklist, and leaves less work. -/
theorem refold_coherent (h : g.Coherent) (hp : g.foldPending = u :: rest) :
    Coheres g (refold u { g with foldPending := rest }) ∧
      ∀ g', refold u { g with foldPending := rest } = .ok () g' → g'.work < g.work := by
  have h' : ({ g with foldPending := rest } : EGraph).Coherent := coherent_setFoldPending h
  have hon : Ongoing g { g with foldPending := rest } := ongoing_setFoldPending h.shape
  have hwork := work_setFoldPending hp
  rcases refold_cases h.shape u rest with
    ⟨-, hrun⟩ | ⟨c, l, r, -, -, -, -, hrun⟩ | ⟨c, k, hstored, -, hnone, hk, hrun⟩
  · rw [hrun]
    refine ⟨⟨h', hon⟩, fun g' hg' => ?_⟩
    cases hg'
    exact hwork
  · rw [hrun]
    exact ⟨⟨h', hon⟩, fun g' hg' => by cases hg'⟩
  · have hi : (({ g with foldPending := rest } : EGraph).learn c (some k)).Indexed :=
      indexed_learn h'.toIndexed hstored hnone (constantFolding_of_foldNode hk)
    have hr : (({ g with foldPending := rest } : EGraph).learn c (some k)).Recalled :=
      recalled_learn h'.shape h'.recalled hstored hnone
    have hsettled := settledBut_learn h'.shape h'.settled hstored k
    obtain ⟨g', hset, hcoh, hon', hle⟩ := settle_coherent hi hr hsettled
      (lt_of_stored h.shape hstored)
    have hlearn : Ongoing { g with foldPending := rest } _ :=
      ongoing_learn (g := { g with foldPending := rest }) (k := k) h'.shape hstored hnone
    rw [hrun, hset]
    refine ⟨⟨hcoh, hon.trans (hlearn.trans hon')⟩, fun g'' hg'' => ?_⟩
    cases hg''
    exact Nat.lt_of_le_of_lt hle (Nat.lt_trans (work_learn hstored hnone) hwork)

theorem drain_coheres (fuel : Nat) (stage : Stage) (unions : Nat) {g : EGraph} (h : g.Coherent) :
    Coheres g (drain fuel stage unions g) := by
  induction fuel generalizing stage unions g with
  | zero => exact ⟨h, .refl⟩
  | succ fuel ih =>
    rw [drain_succ]
    rcases takeUsage_cases stage g with
      ⟨htake, -⟩ | ⟨u, rest, hp, htake⟩ | ⟨u, rest, hp, htake⟩
    · rw [htake]
      exact ⟨h, .refl⟩
    · rw [htake]
      exact (repair_coherent h hp).1.bind fun joined g' h' => ih _ _ h'
    · rw [htake]
      exact (refold_coherent h hp).1.bind fun _ g' h' => ih _ _ h'

/-- **Draining**: with fuel for the work there is, the worklists are emptied, or constants
conflict. -/
theorem drain_coherent (fuel : Nat) (stage : Stage) (unions : Nat) {g : EGraph} (h : g.Coherent)
    (hw : g.work ≤ fuel) : Coheres g (drain fuel stage unions g) ∧
      ∀ n g', drain fuel stage unions g = .ok n g' → g'.pending = [] ∧ g'.foldPending = [] := by
  refine ⟨drain_coheres fuel stage unions h, fun n g' hrun =>
    drain_empties (P := Coherent) ?_ ?_ fuel stage unions h hw hrun⟩
  · intro g u rest joined g' h hp hrun
    obtain ⟨hcoheres, hless⟩ := repair_coherent h hp
    rw [hrun] at hcoheres
    exact ⟨hcoheres.1, hless joined g' hrun⟩
  · intro g u rest g' h hp hrun
    obtain ⟨hcoheres, hless⟩ := refold_coherent h hp
    rw [hrun] at hcoheres
    exact ⟨hcoheres.1, hless g' hrun⟩

/-- **A rebuild** tidies a graph on which nothing is left to be done, or constants conflict. -/
theorem rebuild_coherent (h : g.Coherent) :
    (∃ n g₁, rebuild g = .ok n g₁.tidy ∧ g₁.Coherent ∧ Ongoing g g₁ ∧ g₁.pending = [] ∧
      g₁.foldPending = []) ∨
    ∃ e g₁, rebuild g = .error e g₁ ∧ g₁.Coherent ∧ Ongoing g g₁ := by
  obtain ⟨hcoheres, hnil⟩ := drain_coherent g.work .congruence 0 h (Nat.le_refl _)
  cases hd : drain g.work .congruence 0 g with
  | ok n g₁ =>
    rw [hd] at hcoheres
    refine .inl ⟨n, g₁, ?_, hcoheres.1, hcoheres.2, hnil n g₁ hd⟩
    rw [rebuild_eq, bind_ok hd]
    rfl
  | error e g₁ =>
    rw [hd] at hcoheres
    exact .inr ⟨e, g₁, by rw [rebuild_eq, bind_error hd], hcoheres⟩

end EqSat.EGraph
