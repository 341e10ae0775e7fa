import EqSat.Proofs.EGraph.Calls

/-!
# Looking at a usage again

A rebuild takes usages off the worklists.  To repair one is to enter it in the memo under its
canonical form, and to join its class with the one that was found there; to refold one is to
evaluate its node and to give the class the constant.  Either mends what the worklist promised
and leaves less work than before.

    repair_spec     a usage is taken off `pending`
    refold_cases    what an evaluation may come to
    refold_spec     a usage is taken off `foldPending`
-/

namespace EqSat.EGraph

variable {D : Type} {I : Meaning D} {g g' : EGraph} {o : Origin D} {n : ENode} {u : Usage}
  {rest : List Usage} {c : EClass} {k : Constant} {id : ClassId} {new : ENode → Prop}

/-- How a step may end: in a graph in order, or with a conflict of constants of one value. -/
def Ends {α : Type} (I : Meaning D) (new : ENode → Prop) (g : EGraph) (o : Origin D) :
    EStateM.Result Conflict EGraph α → Prop
  | .ok _ g' => ∃ o', Valid I g' o' ∧ Extends new g o g' o'
  | .error e g' => ∃ o', Lawful I g' o' ∧ Extends new g o g' o' ∧ Clash I e

/-- A step may end as one from an earlier graph does. -/
theorem Ends.extend {α : Type} {o' : Origin D} {r : EStateM.Result Conflict EGraph α}
    (h : Ends I new g' o' r) (hext : Extends new g o g' o') : Ends I new g o r := by
  cases r with
  | ok a g'' =>
    obtain ⟨o'', hvalid, hext'⟩ := h
    exact ⟨o'', hvalid, hext.trans hext'⟩
  | error e g'' =>
    obtain ⟨o'', hlawful, hext', hclash⟩ := h
    exact ⟨o'', hlawful, hext.trans hext', hclash⟩

/-- A step and what follows it.  The step may have been taken with other worklists. -/
theorem Ends.bind {α β : Type} {s : Update α} {f : α → Update β} {g₀ : EGraph}
    (h : Ends I new g o (s g₀))
    (hf : ∀ a g' o', Valid I g' o' → Ends I new g' o' (f a g')) :
    Ends I new g o ((s >>= f) g₀) := by
  cases hrun : s g₀ with
  | ok a g' =>
    rw [hrun] at h
    obtain ⟨o', hvalid, hext⟩ := h
    rw [bind_ok hrun]
    exact (hf a g' o' hvalid).extend hext
  | error e g' =>
    rw [hrun] at h
    rw [bind_error hrun]
    exact h

/-- A graph of the same classes: only the memo and the worklists may differ. -/
theorem extends_of_classes_eq (ha : g'.analysis = g.analysis) (hl : g'.links = g.links)
    (hc : g'.classes = g.classes) : Extends new g o g' o where
  analysis := ha
  size_le := by rw [size, size, hl]
  node := fun _ _ => rfl
  value := fun _ _ => rfl
  find := by
    intro a b hab
    rw [find, find, hl]
    exact hab
  const := by
    intro i k hk
    rw [constantAt?, classAt?, stored?, find, hl, hc]
    exact hk
  fresh := by
    intro i hi hlt
    rw [size, hl] at hlt
    exact absurd hlt (Nat.not_lt.2 hi)
  near := fun _ i hi => ⟨i, by rw [size, hl] at hi; exact hi, rfl⟩

/-! ## Repairs -/

/-- The graph in which the repair of `u` joins classes. -/
def redirect (g : EGraph) (u : Usage) (rest : List Usage) : EGraph :=
  { g with pending := rest, memo := g.memo.insert (g.canonicalize u.1) u.2 }

theorem memo_redirect (m : ENode) : (g.redirect u rest).memo[m]? =
    if m = g.canonicalize u.1 then some u.2 else g.memo[m]? :=
  getElem_insert g.memo (g.canonicalize u.1) u.2 m

theorem work_redirect (hp : g.pending = u :: rest) : (g.redirect u rest).work < g.work := by
  rw [work_eq, work_eq, hp]
  show _ + rest.length + g.foldPending.length < _ + (rest.length + 1) + _
  exact Nat.add_lt_add_right (Nat.add_lt_add_left (Nat.lt_succ_self _) _) _

theorem core_redirect (h : Core I g o) (hu : g.Stands o u) (hrest : ∀ v ∈ rest, v ∈ g.pending) :
    Core I (g.redirect u rest) o where
  shape := ⟨h.shape.forest, h.shape.size_classes, h.shape.stored_iff, h.shape.id_eq⟩
  founded := by
    refine ⟨h.founded.child_lt, ?_, h.founded.nodes, h.founded.parents,
      fun v hv => h.founded.pending v (hrest v hv), h.founded.foldPending⟩
    intro m j hm
    rw [memo_redirect] at hm
    split at hm
    · next hmu =>
      cases hm
      refine Stands.of_same (v := u) hu ⟨?_, rfl⟩
      rw [hmu]
      exact canonicalize_canonicalize h.shape u.1
    · exact h.founded.memo m j hm
  complete := ⟨h.complete.used, h.complete.folded, h.complete.listed, h.complete.const,
    h.complete.unknown⟩
  sound := ⟨h.sound.analysis, h.sound.holds, h.sound.value_find, h.sound.value_const⟩

/-- What was entered is found as before, or was found where `u` is found now. -/
theorem found_redirect (h : Valid I g o) (hp : g.pending = u :: rest) {i : ClassId}
    (hi : i < g.size) :
    (∃ j, (g.redirect u rest).memo[g.canonicalize (o.node i)]? = some j ∧
      (g.find j = g.find i ∨ (j = u.2 ∧ ∃ id, g.memo[g.canonicalize u.1]? = some id ∧
        g.find i = g.find id))) ∨
    (g.redirect u rest).AwaitsRepair (o.node i, i) := by
  by_cases hcan : g.canonicalize (o.node i) = g.canonicalize u.1
  · rcases h.known i hi with ⟨j, hj, hji⟩ | ⟨v, hv, hvi⟩
    · refine Or.inl ⟨u.2, by rw [memo_redirect, if_pos hcan], Or.inr ⟨rfl, j, ?_, hji.symm⟩⟩
      rw [← hcan]
      exact hj
    · rw [hp, List.mem_cons] at hv
      rcases hv with rfl | hv
      · exact Or.inl ⟨v.2, by rw [memo_redirect, if_pos hcan], Or.inl hvi.2⟩
      · exact Or.inr ⟨v, hv, hvi⟩
  · rcases h.known i hi with ⟨j, hj, hji⟩ | ⟨v, hv, hvi⟩
    · exact Or.inl ⟨j, by rw [memo_redirect, if_neg hcan]; exact hj, Or.inl hji⟩
    · rw [hp, List.mem_cons] at hv
      rcases hv with rfl | hv
      · exact absurd hvi.1.symm hcan
      · exact Or.inr ⟨v, hv, hvi⟩

/-- A leaf is found in the class of its constant, also when it is entered anew. -/
theorem settled_redirect (h : Valid I g o) (hu : g.Stands o u) :
    (g.redirect u rest).Settled := by
  intro j c k hf hc hk
  obtain ⟨⟨i, hi, hij⟩, hleaf, hall⟩ := h.settled j c k hf hc hk
  refine ⟨?_, hleaf, hall⟩
  by_cases hcan : (Node.leaf (.const k) : ENode) = g.canonicalize u.1
  · refine ⟨u.2, by rw [memo_redirect, if_pos hcan], ?_⟩
    -- the class of `u` has the constant too, and its leaf is in one class only
    obtain ⟨e, he, hn, hfe⟩ := hu
    have hnode : o.node e = .leaf (.const k) := by
      have hcan' : g.canonicalize u.1 = g.canonicalize (o.node e) := hn
      rw [← hcan] at hcan'
      cases hne : o.node e <;> rw [hne] at hcan' <;>
        simp only [canonicalize, Node.map, reduceCtorEq] at hcan'
      exact hcan'.symm
    have ha : g.analysis = .constantFolding := by
      cases hana : g.analysis with
      | constantFolding => rfl
      | empty =>
        have hnone := h.complete.unknown hana j
        rw [constantAt_of_stored h.shape hc] at hnone
        rw [hnone] at hk
        cases hk
    have hconst := h.complete.const ha e he k hnode
    obtain ⟨d, hd⟩ := exists_stored h.shape he
    rw [← constantAt_find h.shape, constantAt_of_stored h.shape hd] at hconst
    obtain ⟨⟨i', hi', hij'⟩, -⟩ := h.settled _ d k hf hd hconst
    obtain rfl : i = i' := by
      rw [hi] at hi'
      exact Option.some.inj hi'
    show g.find u.2 = j
    have hfe' : g.find u.2 = g.find e := hfe
    rw [hfe', ← hij', hij]
  · exact ⟨i, by rw [memo_redirect, if_neg hcan]; exact hi, hij⟩

theorem repair_eq (u : Usage) (g : EGraph) (rest : List Usage) :
    repair u { g with pending := rest } = match g.memo[g.canonicalize u.1]? with
      | some id => union id u.2 (g.redirect u rest)
      | none => .ok false (g.redirect u rest) := by
  show (match g.memo[g.canonicalize u.1]? with
    | some id => union id u.2
    | none => return false : Update Bool) (g.redirect u rest) = _
  cases g.memo[g.canonicalize u.1]? <;> rfl

/-- **A repair** takes the usage on top of the worklist. -/
theorem repair_spec (h : Valid I g o) (hp : g.pending = u :: rest) (new : ENode → Prop) :
    Ends I new g o (repair u { g with pending := rest }) ∧
      ∀ joined g', repair u { g with pending := rest } = .ok joined g' → g'.work < g.work := by
  have hu : g.Stands o u := h.founded.pending u (by rw [hp]; exact List.mem_cons_self)
  have hcore : Core I (g.redirect u rest) o :=
    core_redirect h.toCore hu fun v hv => by rw [hp]; exact List.mem_cons_of_mem _ hv
  have hext : Extends new g o (g.redirect u rest) o := extends_of_classes_eq rfl rfl rfl
  have hwork := work_redirect hp
  rw [repair_eq]
  cases hm : g.memo[g.canonicalize u.1]? with
  | none =>
    refine ⟨⟨o, ⟨hcore, ?_, settled_redirect h hu⟩, hext⟩, ?_⟩
    · intro i hi
      refine (found_redirect h hp hi).imp_left ?_
      rintro ⟨j, hj, hji | ⟨-, id, hid, -⟩⟩
      · exact ⟨j, hj, hji⟩
      · rw [hm] at hid
        cases hid
    · intro joined g' hrun
      cases hrun
      exact hwork
  | some id =>
    have hstands := h.founded.memo _ _ hm
    have hvalue : o.value id = o.value u.2 :=
      h.value_eq_of_canonicalize_eq hstands hu (canonicalize_canonicalize h.shape u.1)
    have hknown : (g.redirect u rest).KnownUpTo o id u.2 := by
      intro i hi
      refine (found_redirect h hp hi).imp_left ?_
      rintro ⟨j, hj, hji | ⟨rfl, id', hid', hi'⟩⟩
      · exact ⟨j, hj, Or.inl hji⟩
      · obtain rfl : id = id' := Option.some.inj (hm.symm.trans hid')
        exact ⟨u.2, hj, Or.inr ⟨rfl, hi'⟩⟩
    have hid : id < g.size := hstands.lt h.shape
    have hlt : u.2 < g.size := hu.lt h.shape
    rcases union_spec hcore (settled_redirect h hu) hknown hid hlt hvalue with
      ⟨g', o', hrun, hj⟩ | ⟨e, hrun, hclash⟩
    · dsimp only
      rw [hrun]
      refine ⟨⟨o', hj.valid, hext.trans (hj.extended new)⟩, ?_⟩
      intro joined g'' hg''
      cases hg''
      exact Nat.lt_of_le_of_lt hj.work_le hwork
    · dsimp only
      rw [hrun]
      exact ⟨⟨o, hcore.toLawful, hext, hclash⟩, fun joined g' hg' => by cases hg'⟩

/-! ## Evaluations -/

/-- Evaluations that have had their effect are no longer due. -/
theorem lawful_setFoldPending {todo : List Usage} (h : Lawful I g o)
    (hsub : ∀ v ∈ todo, v ∈ g.foldPending) : Lawful I { g with foldPending := todo } o where
  shape := ⟨h.shape.forest, h.shape.size_classes, h.shape.stored_iff, h.shape.id_eq⟩
  founded := ⟨h.founded.child_lt, h.founded.memo, h.founded.nodes, h.founded.parents,
    h.founded.pending, fun v hv => h.founded.foldPending v (hsub v hv)⟩
  sound := ⟨h.sound.analysis, h.sound.holds, h.sound.value_find, h.sound.value_const⟩

theorem work_setFoldPending (hp : g.foldPending = u :: rest) :
    ({ g with foldPending := rest } : EGraph).work < g.work := by
  rw [work_eq, work_eq, hp]
  exact Nat.add_lt_add_left (Nat.lt_succ_self _) _

theorem core_setFoldPending {todo : List Usage} (h : Core I g o)
    (hsub : ∀ v ∈ todo, v ∈ g.foldPending)
    (hdone : ∀ v ∈ g.foldPending, v ∉ todo → ∀ k, g.foldNode v.1 = some k →
      g.constantAt? v.2 = some k) : Core I { g with foldPending := todo } o where
  toLawful := lawful_setFoldPending h.toLawful hsub
  complete := by
    refine ⟨h.complete.used, ?_, h.complete.listed, h.complete.const, h.complete.unknown⟩
    intro i hi k hk
    rcases h.complete.folded i hi k hk with hc | ⟨v, hv, hvi⟩
    · exact Or.inl hc
    · by_cases hmem : v ∈ todo
      · exact Or.inr ⟨v, hmem, hvi⟩
      · left
        have hfold : g.foldNode v.1 = some k := by
          rw [foldNode_of_canonicalize_eq h.shape hvi.1]
          exact hk
        show g.constantAt? i = some k
        rw [← constantAt_of_find_eq hvi.2]
        exact hdone v hv hmem k hfold

/-- The graph in which the class `c` is known to equal `k`. -/
def learn (g : EGraph) (c : EClass) (k : Option Constant) : EGraph :=
  { g.modifyClass c.id ({ · with data := k }) with
    foldPending := pushUsages c.parents g.foldPending }

theorem stored_learn (hc : g.stored? c.id = some c) (j : ClassId) :
    (g.learn c (some k)).stored? j =
      if j = c.id then some { c with data := some k } else g.stored? j := by
  show (g.modifyClass c.id ({ · with data := some k })).stored? j = _
  rw [stored_modifyClass]
  by_cases hj : j = c.id
  · subst hj
    rw [if_pos rfl, if_pos rfl, hc]
    rfl
  · rw [if_neg hj, if_neg (Ne.symm hj)]

theorem classAt_learn (hc : g.stored? c.id = some c) (a : ClassId) :
    (g.learn c (some k)).classAt? a =
      if g.find a = c.id then some { c with data := some k } else g.classAt? a :=
  stored_learn hc (g.find a)

theorem constantAt_learn (hc : g.stored? c.id = some c) (a : ClassId) :
    (g.learn c (some k)).constantAt? a =
      if g.find a = c.id then some k else g.constantAt? a := by
  rw [constantAt?, classAt_learn hc, constantAt?]
  split <;> rfl

/-- What is known stays known. -/
theorem constantAt_learn_of_eq (hc : g.stored? c.id = some c) (hnone : c.data = none)
    {a : ClassId} {l : Constant} (ha : g.constantAt? a = some l) :
    (g.learn c (some k)).constantAt? a = some l := by
  rw [constantAt_learn hc, if_neg]
  · exact ha
  · intro hf
    rw [constantAt?, classAt?, hf, hc, Option.bind_some, hnone] at ha
    cases ha

/-- A node whose children are known goes on evaluating to the same. -/
theorem foldNode_mono (ha : g'.analysis = g.analysis)
    (hc : ∀ a l, g.constantAt? a = some l → g'.constantAt? a = some l)
    (hk : g.foldNode n = some k) : g'.foldNode n = some k := by
  unfold foldNode at hk ⊢
  rw [ha]
  split at hk
  · cases hk
  · obtain ⟨m, hm⟩ := Node.exists_map_some_of_fold hk
    have hm' : n.map g'.constantAt? = m.map some := by
      cases n <;> cases m <;> simp only [Node.map, reduceCtorEq, Node.leaf.injEq, Node.unary.injEq,
        Node.binary.injEq] at hm ⊢
      · exact hm
      · exact ⟨hm.1, hc _ _ hm.2⟩
      · exact ⟨hm.1, hc _ _ hm.2.1, hc _ _ hm.2.2⟩
    rw [hm] at hk
    rw [hm']
    exact hk

theorem founded_learn (hc : g.stored? c.id = some c) (h : g.Founded o) :
    (g.learn c (some k)).Founded o where
  child_lt := h.child_lt
  memo := h.memo
  nodes := by
    intro j d hd m hm
    rw [stored_learn hc] at hd
    split at hd
    · next hj =>
      cases hd
      exact h.nodes j c (hj ▸ hc) m hm
    · exact h.nodes j d hd m hm
  parents := by
    intro j d hd v hv
    rw [stored_learn hc] at hd
    split at hd
    · next hj =>
      cases hd
      exact h.parents j c (hj ▸ hc) v hv
    · exact h.parents j d hd v hv
  pending := h.pending
  foldPending := by
    intro v hv
    rcases mem_pushUsages.1 hv with hv | hv
    · exact h.parents c.id c hc v hv
    · exact h.foldPending v hv

theorem complete_learn (hc : g.stored? c.id = some c) (hnone : c.data = none)
    (ha : g.analysis = .constantFolding) (h : g.Complete o) :
    (g.learn c (some k)).Complete o where
  used := by
    intro i hi a hai
    obtain ⟨d, hd, v, hv, hvu⟩ := h.used i hi a hai
    unfold UsedBy
    rw [classAt_learn hc]
    split
    · next hf =>
      obtain rfl := classAt_of_find_eq hc hf hd
      exact ⟨_, rfl, v, hv, hvu⟩
    · exact ⟨d, hd, v, hv, hvu⟩
  folded := by
    intro i hi l hl
    by_cases hchild : ∃ a ∈ (o.node i).children, g.find a = c.id
    · obtain ⟨a, hai, haf⟩ := hchild
      obtain ⟨d, hd, v, hv, hvu⟩ := h.used i hi a hai
      obtain rfl := classAt_of_find_eq hc haf hd
      exact Or.inr ⟨v, mem_pushUsages.2 (Or.inl hv), hvu⟩
    · push Not at hchild
      have hfold : g.foldNode (o.node i) = some l := by
        rw [← hl, foldNode, foldNode, Node.map_congr fun a hai => ?_]
        · rfl
        · rw [constantAt_learn hc, if_neg (hchild a hai)]
      rcases h.folded i hi l hfold with hi' | ⟨v, hv, hvu⟩
      · exact Or.inl (constantAt_learn_of_eq hc hnone hi')
      · exact Or.inr ⟨v, mem_pushUsages.2 (Or.inr hv), hvu⟩
  listed := by
    intro i hi
    obtain ⟨d, hd, hdu⟩ := h.listed i hi
    unfold Listed
    rw [classAt_learn hc]
    split
    · next hf =>
      obtain rfl := classAt_of_find_eq hc hf hd
      exact ⟨_, rfl, hdu.imp (fun h => absurd hnone h.1) id⟩
    · exact ⟨d, hd, hdu⟩
  const := fun _ i hi l hl => constantAt_learn_of_eq hc hnone (h.const ha i hi l hl)
  unknown := by
    intro hempty
    have hempty' : g.analysis = .empty := hempty
    rw [ha] at hempty'
    cases hempty'

/-- A class may be given the constant that is its value. -/
theorem core_learn (h : Core I g o) (hc : g.stored? c.id = some c) (hnone : c.data = none)
    (ha : g.analysis = .constantFolding) (hv : o.value c.id = I.const k) :
    Core I (g.learn c (some k)) o where
  shape := by
    have hs := shape_modifyClass h.shape c.id (f := ({ · with data := some k })) fun _ => rfl
    exact ⟨hs.forest, hs.size_classes, hs.stored_iff, hs.id_eq⟩
  founded := founded_learn hc h.founded
  complete := complete_learn hc hnone ha h.complete
  sound := by
    refine ⟨h.sound.analysis, h.sound.holds, h.sound.value_find, ?_⟩
    intro i l hl
    rw [constantAt_learn hc] at hl
    split at hl
    · next hf =>
      cases hl
      have hi : i < g.size := by
        rw [← find_lt_iff h.shape, hf]
        exact lt_of_stored h.shape hc
      rw [← h.sound.value_find i hi, hf, hv]
    · exact h.sound.value_const i l hl

/-- The usage that makes a class known may be taken off the worklist when it has. -/
theorem core_learn_of_foldPending (h : Core I g o) (hp : g.foldPending = u :: rest)
    (hc : g.stored? c.id = some c) (hnone : c.data = none) (ha : g.analysis = .constantFolding)
    (hv : o.value c.id = I.const k) (hu : c.id = g.find u.2) (hk : g.foldNode u.1 = some k) :
    Core I (({ g with foldPending := rest } : EGraph).learn c (some k)) o := by
  have hpop : Core I { g.learn c (some k) with foldPending := pushUsages c.parents rest } o := by
    refine core_setFoldPending (core_learn h hc hnone ha hv) ?_ ?_
    · intro v hv
      refine mem_pushUsages.2 ((mem_pushUsages.1 hv).imp_right fun hv => ?_)
      rw [hp]
      exact List.mem_cons_of_mem _ hv
    · intro v hv hv' l hl
      rw [mem_pushUsages, not_or] at hv'
      have hmem := (mem_pushUsages.1 hv).resolve_left hv'.1
      rw [hp, List.mem_cons] at hmem
      obtain rfl := hmem.resolve_right hv'.2
      have hk' : (g.learn c (some k)).foldNode v.1 = some k :=
        foldNode_mono (g := g) rfl (fun _ _ => constantAt_learn_of_eq hc hnone) hk
      rw [constantAt_learn hc, if_pos hu.symm, ← hk', hl]
  exact hpop

theorem extends_learn (hc : g.stored? c.id = some c) (hnone : c.data = none) :
    Extends new g o (({ g with foldPending := rest } : EGraph).learn c (some k)) o where
  analysis := rfl
  size_le := Nat.le_refl _
  node := fun _ _ => rfl
  value := fun _ _ => rfl
  find := fun _ _ hab => hab
  const := fun _ _ hl => constantAt_learn_of_eq (g := { g with foldPending := rest }) hc hnone hl
  fresh := fun _ hi hlt => absurd hlt (Nat.not_lt.2 hi)
  near := fun _ i hi => ⟨i, hi, rfl⟩

theorem work_learn (hc : g.stored? c.id = some c) (hnone : c.data = none) :
    (g.learn c (some k)).work < g.work := by
  have hcredit := total_modifyClass (f := credit) hc ({ · with data := some k })
  have husages := total_modifyClass (f := (·.parents.size)) hc ({ · with data := some k })
  have hc3 : credit c = 3 := by simp [credit, hnone]
  have hc2 : credit { c with data := some k } = 2 := rfl
  have hle : c.parents.size ≤ g.usages := le_total (f := (·.parents.size)) hc
  have hcredit' : (g.learn c (some k)).total credit + 1 = g.total credit := by
    show (g.modifyClass c.id _).total credit + 1 = _
    omega
  have husages' : (g.learn c (some k)).usages = g.usages := by
    show (g.modifyClass c.id _).total _ = g.total _
    simp only at husages
    omega
  have hpush : (g.learn c (some k)).foldPending.length = c.parents.size + g.foldPending.length :=
    length_pushUsages _ _
  have hpending : (g.learn c (some k)).pending = g.pending := rfl
  rw [work_eq, work_eq, husages', hpush, hpending, ← hcredit', Nat.add_mul, Nat.one_mul]
  omega

/-- The class that is given a constant is the one to settle. -/
theorem settledBut_learn (hs : g.Shape) (h : g.Settled) (hc : g.stored? c.id = some c)
    (k : Constant) : (g.learn c (some k)).SettledBut (· = (g.learn c (some k)).find c.id) := by
  intro j d l hj hd hl
  have hj' : j ≠ c.id := by
    rw [← find_of_stored hs hc]
    exact hj
  rw [stored_learn hc, if_neg hj'] at hd
  exact h j d l id hd hl

theorem refold_run (u : Usage) (g : EGraph) : refold u g =
    (match g.classAt? u.2 with
    | none => return ()
    | some c =>
      match mergeConstants c.data (g.foldNode u.1) with
      | .error (left, right) => throw ⟨left, right, c.id, c.id⟩
      | .ok data =>
        if data = c.data then return ()
        else do
          set (g.learn c data)
          settle c.id : Update Unit) g := rfl

/-- A merge that tells something new tells what the right side knew alone. -/
theorem mergeConstants_eq_new {a b d : Option Constant} (h : mergeConstants a b = .ok d)
    (hne : d ≠ a) : a = none ∧ ∃ k, b = some k ∧ d = some k := by
  obtain ⟨ha, hb, hd⟩ := mergeConstants_eq_ok h
  cases ha' : a with
  | some k => exact absurd (by rw [ha k ha', ha']) hne
  | none =>
    cases d with
    | none => exact absurd ha'.symm hne
    | some k =>
      rcases hd k rfl with hd | hd
      · rw [ha'] at hd
        cases hd
      · exact ⟨rfl, k, hd, rfl⟩

/-- Only where constants are folded, a node evaluates to one. -/
theorem constantFolding_of_foldNode (h : g.foldNode n = some k) :
    g.analysis = .constantFolding := by
  cases ha : g.analysis with
  | constantFolding => rfl
  | empty => simp [foldNode, ha] at h

/-- The node of the usage tells its class nothing new, or two different constants meet, or its
class learns what the node evaluates to. -/
theorem refold_cases (hs : g.Shape) (u : Usage) (rest : List Usage) :
    ((∀ c k, g.classAt? u.2 = some c → g.foldNode u.1 = some k → c.data = some k) ∧
      refold u { g with foldPending := rest } = .ok () { g with foldPending := rest }) ∨
    (∃ c l r, g.classAt? u.2 = some c ∧ c.data = some l ∧ g.foldNode u.1 = some r ∧ l ≠ r ∧
      refold u { g with foldPending := rest } =
        .error ⟨l, r, c.id, c.id⟩ { g with foldPending := rest }) ∨
    ∃ c k, g.stored? c.id = some c ∧ c.id = g.find u.2 ∧ c.data = none ∧
      g.foldNode u.1 = some k ∧ refold u { g with foldPending := rest } =
        settle c.id (({ g with foldPending := rest } : EGraph).learn c (some k)) := by
  have hclass : ({ g with foldPending := rest } : EGraph).classAt? u.2 = g.classAt? u.2 := rfl
  have hfold : ({ g with foldPending := rest } : EGraph).foldNode u.1 = g.foldNode u.1 := rfl
  rw [refold_run, hclass]
  cases hc : g.classAt? u.2 with
  | none => exact .inl ⟨fun c k hc' => (by cases hc'), rfl⟩
  | some c =>
    dsimp only
    rw [hfold]
    cases hm : mergeConstants c.data (g.foldNode u.1) with
    | error lr =>
      obtain ⟨l, r⟩ := lr
      obtain ⟨hl, hr, hne⟩ := mergeConstants_eq_error.1 hm
      exact .inr (.inl ⟨c, l, r, rfl, hl, hr, hne, rfl⟩)
    | ok data =>
      dsimp only
      by_cases hsame : data = c.data
      · rw [if_pos hsame]
        refine .inl ⟨fun c' k hc' hk => ?_, rfl⟩
        cases hc'
        rw [← hsame]
        exact (mergeConstants_eq_ok hm).2.1 k hk
      · rw [if_neg hsame]
        obtain ⟨hnone, k, hk, rfl⟩ := mergeConstants_eq_new hm hsame
        have hid : c.id = g.find u.2 := hs.id_eq _ c hc
        exact .inr (.inr ⟨c, k, by rw [hid]; exact hc, hid, hnone, hk, rfl⟩)

/-- **An evaluation** takes the usage on top of the worklist. -/
theorem refold_spec (h : Valid I g o) (hp : g.foldPending = u :: rest) (new : ENode → Prop) :
    Ends I new g o (refold u { g with foldPending := rest }) ∧
      ∀ g', refold u { g with foldPending := rest } = .ok () g' → g'.work < g.work := by
  have hu : g.Stands o u := h.founded.foldPending u (by rw [hp]; exact List.mem_cons_self)
  have hsub : ∀ v ∈ rest, v ∈ g.foldPending := fun v hv => by
    rw [hp]
    exact List.mem_cons_of_mem _ hv
  have hlt : u.2 < g.size := hu.lt h.shape
  have hext : Extends new g o { g with foldPending := rest } o := extends_of_classes_eq rfl rfl rfl
  have hwork := work_setFoldPending hp
  rcases refold_cases h.shape u rest with
    ⟨htold, hrun⟩ | ⟨c, l, r, hc, hl, hr, hne, hrun⟩ | ⟨c, k, hstored, hcid, hnone, hk, hrun⟩
  · rw [hrun]
    refine ⟨⟨o, ⟨core_setFoldPending h.toCore hsub ?_, h.known, h.settled⟩, hext⟩, ?_⟩
    · intro v hv hv' k hk
      rw [hp, List.mem_cons] at hv
      obtain rfl := hv.resolve_right hv'
      obtain ⟨c, hc, -⟩ := exists_classAt h.shape hlt
      rw [constantAt?, hc, Option.bind_some]
      exact htold c k hc hk
    · intro g' hg'
      cases hg'
      exact hwork
  · rw [hrun]
    refine ⟨⟨o, lawful_setFoldPending h.toLawful hsub, hext, hne, ?_⟩, fun g' hg' => by cases hg'⟩
    rw [← h.sound.value_const u.2 l (by rw [constantAt?, hc, Option.bind_some]; exact hl)]
    exact h.sound.eq_const_of_foldNode hr (h.holds hu)
  · have hv : o.value c.id = I.const k := by
      rw [hcid, h.sound.value_find u.2 hlt]
      exact h.sound.eq_const_of_foldNode hk (h.holds hu)
    have hcore := core_learn_of_foldPending h.toCore hp hstored hnone
      (constantFolding_of_foldNode hk) hv hcid hk
    have hsettled : (({ g with foldPending := rest } : EGraph).learn c (some k)).SettledBut
        (· = (({ g with foldPending := rest } : EGraph).learn c (some k)).find c.id) :=
      settledBut_learn h.shape h.settled hstored k
    obtain ⟨g', o', hset, hvalid, hext', hwork'⟩ := settle_spec hcore h.known hsettled
      (lt_of_stored h.shape hstored)
    rw [hrun, hset]
    refine ⟨⟨o', hvalid, (extends_learn hstored hnone).trans (hext' new)⟩, fun g'' hg'' => ?_⟩
    cases hg''
    exact Nat.lt_of_le_of_lt hwork' (Nat.lt_trans (work_learn hstored hnone) hwork)

end EqSat.EGraph
