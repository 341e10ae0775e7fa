import EqSat.Proofs.Remembered

/-!
# No usage is ever lost

Every node that has been added stays among the parents of its children: their classes hold an entry
of the node's canonical form, in the node's class, whatever is added, joined, pruned and rebuilt
later.  Joins hand the parents of one class on to the other, and tidying keeps one of equal entries.

Entries of one canonical form are in one class when a rebuild has completed.  Only a conflict may
keep them apart, and a rebuild that is run again after a conflict keeps one entry for all of them:
its class is then like that of the node, a class of known constant.  All other graphs, those that
the conflict leaves behind among them, hold an entry in the very class.

    retains_drain            what a rebuild keeps, up to a conflict or to the tidying
    Valid.traced             a graph in order lists its entries among the parents
    Recorded.keeps_usages    so do graphs that calls make, for all nodes that were added
    not_keeps_usages         not always in the very class of the node
-/

namespace EqSat.EGraph

variable {analysis : Analysis} {g g' g'' : EGraph} {u v : Usage} {x y c : EClass}
  {a id : ClassId} {n : ENode} {k : Constant} {rest : List Usage}

/-! ## Usages under other names -/

theorem UsedBy.near (h : g.UsedBy a u) : g.UsedNear a u := by
  obtain ⟨c, hc, v, hv, hvu⟩ := h
  exact ⟨c, hc, v, hv, close_of_same hvu⟩

/-- What is used under one name is used under another. -/
theorem usedBy_of_same (h : ∀ a ∈ v.1.children, g.UsedBy a v) (huv : g.Same u v) :
    ∀ a ∈ u.1.children, g.UsedBy a u := by
  intro a ha
  have hmem : g.find a ∈ (g.canonicalize v.1).children := by
    rw [← huv.1]
    exact mem_children_canonicalize.2 ⟨a, ha, rfl⟩
  obtain ⟨b, hb, hba⟩ := mem_children_canonicalize.1 hmem
  obtain ⟨c, hc, w, hw, hwv⟩ := h b hb
  exact ⟨c, by rwa [classAt?, ← hba], w, hw, hwv.trans huv.symm⟩

theorem Onward.same (h : Onward g g') (huv : g.Same u v) : g'.Same u v :=
  ⟨canonicalize_eq_of_find h.find huv.1, h.find _ _ huv.2⟩

theorem UsedBy.lt (hs : g.Shape) (h : g.UsedBy a u) : a < g.size := by
  obtain ⟨c, hc, -⟩ := h
  exact (find_lt_iff hs).1 (lt_of_stored hs hc)

/-! ## What calls keep -/

/-- Parents stay parents, and an entry is an old one under the name it has now, or is listed by the
classes of its children. -/
structure Retains (g g' : EGraph) : Prop where
  shape : g'.Shape
  onward : Onward g g'
  used : ∀ a u, g.UsedBy a u → g'.UsedBy a u
  near : ∀ a u, g.UsedNear a u → g'.UsedNear a u
  entry : ∀ u, g'.Entry u → (∃ v, g.Entry v ∧ g'.Same u v) ∨ ∀ a ∈ u.1.children, g'.UsedBy a u

namespace Retains

theorem refl (hs : g.Shape) : Retains g g where
  shape := hs
  onward := Ongoing.refl.toOnward
  used := fun _ _ h => h
  near := fun _ _ h => h
  entry := fun u hu => .inl ⟨u, hu, same_refl u⟩

theorem trans (h : Retains g g') (h' : Retains g' g'') : Retains g g'' where
  shape := h'.shape
  onward := h.onward.trans h'.onward
  used := fun a u hu => h'.used a u (h.used a u hu)
  near := fun a u hu => h'.near a u (h.near a u hu)
  entry := by
    intro u hu
    rcases h'.entry u hu with ⟨v, hv, huv⟩ | hused
    · rcases h.entry v hv with ⟨w, hw, hvw⟩ | hused
      · exact .inl ⟨w, hw, huv.trans (h'.onward.same hvw)⟩
      · exact .inr (usedBy_of_same (fun a ha => h'.used a v (hused a ha)) huv)
    · exact .inr hused

end Retains

/-! ### Primitives -/

theorem retains_enter (hs : g.Shape) (hn : g.Fresh n) : Retains g (g.enter n) where
  shape := shape_enter hs
  onward := (ongoing_enter hs).toOnward
  used := fun _ _ hu => hu.enter hs (hu.lt hs)
  near := fun _ _ hu => hu.enter hs
  entry := by
    intro u hu
    rcases entry_enter hs hu with hu | rfl
    · exact .inl ⟨u, hu, same_refl u⟩
    · exact .inr fun a ha => usedBy_enter_size hs hn ha

theorem retains_absorb {k : Option Constant} (hs : g.Shape) (hxy : g.Apart x y)
    (hk : mergeConstants x.data y.data = .ok k) : Retains g (g.absorb x.id y k) where
  shape := shape_absorb hs hxy
  onward := (ongoing_absorb hs hxy hk).toOnward
  used := fun _ _ hu => hu.absorb hs hxy
  near := fun _ _ hu => hu.absorb hs hxy hk
  entry := fun u hu => .inl ⟨u, entry_absorb hs hxy hu, same_refl u⟩

/-- Pruning drops nodes, and no parents. -/
theorem retains_prune (hs : g.Shape) (hk : g.constantAt? id = some k) :
    Retains g (g.modifyClass (g.find id) EClass.prune) := by
  obtain ⟨c, hc, hck⟩ := Option.bind_eq_some_iff.1 hk
  rw [classAt?] at hc
  have hne : c.data ≠ none := by simp [hck]
  have hr := relisted_prune (g := g) hc hne
  exact ⟨hr.shape hs, (ongoing_prune hs hc hne).toOnward, fun _ _ hu => hr.usedBy hu,
    fun _ _ hu => hu.prune hs hc hne, fun u hu => .inl ⟨u, entry_prune hu, same_refl u⟩⟩

/-- The memo, the worklists and the constants have no part in who uses a class. -/
theorem Relabels.retains (hr : Relabels g g') (hon : Onward g g')
    (hentry : ∀ u, g'.Entry u → ∃ v, g.Entry v ∧ g.Same u v) : Retains g g' where
  shape := hr.shape
  onward := hon
  used := by
    rintro a u ⟨c, hc, v, hv, hvu⟩
    obtain ⟨c', hc', heq⟩ := hr.exists_classAt hc
    exact ⟨c', hc', v, by rwa [heq], hon.same hvu⟩
  near := fun _ _ hu => hr.usedNear hon hu
  entry := by
    intro u hu
    obtain ⟨v, hv, huv⟩ := hentry u hu
    exact .inl ⟨v, hv, hon.same huv⟩

theorem Relabels.entry_of_parents (hr : Relabels g g') (hc : g'.stored? id = some c)
    (hu : u ∈ c.parents) : g.Entry u := by
  obtain ⟨d, hd, heq⟩ := Option.map_eq_some_iff.1 ((hr.lists id).symm.trans (by rw [hc]; rfl))
  simp only [Prod.mk.injEq] at heq
  exact .parent hd (by rwa [heq.2])

theorem retains_redirect (hs : g.Shape) (hp : g.pending = u :: rest) :
    Retains g (g.redirect u rest) := by
  have hr : Relabels g (g.redirect u rest) := relabels_of_classes_eq hs rfl rfl
  refine hr.retains (ongoing_redirect hs).toOnward fun v hv => ?_
  rcases hv with hv | ⟨hc, hv⟩ | hv
  · rw [memo_redirect] at hv
    split at hv
    · next hcan =>
      refine ⟨u, .pending (by rw [hp]; exact List.mem_cons_self), ?_, by rw [← Option.some.inj hv]⟩
      rw [hcan, canonicalize_canonicalize hs]
    · exact ⟨v, .memo hv, same_refl v⟩
  · exact ⟨v, hr.entry_of_parents hc hv, same_refl v⟩
  · exact ⟨v, .pending (by rw [hp]; exact List.mem_cons_of_mem _ hv), same_refl v⟩

theorem retains_setFoldPending (hs : g.Shape) : Retains g { g with foldPending := rest } := by
  have hr : Relabels g { g with foldPending := rest } := relabels_of_classes_eq hs rfl rfl
  refine hr.retains (ongoing_setFoldPending hs).toOnward fun v hv => ⟨v, ?_, same_refl v⟩
  rcases hv with hv | ⟨hc, hv⟩ | hv
  · exact .memo hv
  · exact .parent hc hv
  · exact .pending hv

theorem retains_learn (hs : g.Shape) (hc : g.stored? c.id = some c) (hnone : c.data = none) :
    Retains g (g.learn c (some k)) := by
  have hr := relabels_learn hs c (some k)
  refine hr.retains (ongoing_learn hs hc hnone).toOnward fun v hv => ⟨v, ?_, same_refl v⟩
  rcases hv with hv | ⟨hd, hv⟩ | hv
  · exact .memo hv
  · exact hr.entry_of_parents hd hv
  · exact .pending hv

/-! ### Calls -/

theorem Retains.bind {α β : Type} {s : Update α} {f : α → Update β} {g₀ : EGraph}
    (hs : Retains g (left (s g₀)))
    (hf : ∀ a g', s g₀ = .ok a g' → Retains g g' → Retains g' (left (f a g'))) :
    Retains g (left ((s >>= f) g₀)) := by
  cases hrun : s g₀ with
  | ok a g' =>
    rw [hrun] at hs
    rw [bind_ok hrun]
    exact hs.trans (hf a g' hrun hs)
  | error e g' =>
    rw [hrun] at hs
    rw [bind_error hrun]
    exact hs

theorem retains_merge {b : ClassId} (hs : g.Shape) (ha : a < g.size) (hb : b < g.size) :
    Retains g (left (merge a b g)) := by
  rcases merge_cases hs ha hb with ⟨-, hrun⟩ | ⟨x, y, hxy, -, -, hrun⟩
  · rw [hrun]
    exact .refl hs
  · rw [hrun]
    rcases mergeInto_cases x y g with ⟨k, hk, hinto⟩ | ⟨l, r, -, -, -, hinto⟩
    · rw [hinto]
      exact retains_absorb hs hxy hk
    · rw [hinto]
      exact .refl hs

theorem retains_intern_leaf (hs : g.Shape) (l : Leaf) :
    Retains g (left (intern (.leaf l) g)) := by
  rw [intern_eq]
  cases hmemo : g.memo[(Node.leaf l : ENode)]? with
  | some id => exact .refl hs
  | none => exact retains_enter hs ⟨rfl, by simp [Node.children], hmemo⟩

theorem retains_settle (hb : g.Backed) (hid : id < g.size) : Retains g (left (settle id g)) := by
  rw [settle_eq]
  cases hk : g.constantAt? id with
  | none => exact .refl hb.shape
  | some k =>
    refine (retains_intern_leaf hb.shape _).bind fun leaf g₁ hintern h₁ => ?_
    have hleaf := leads_intern hb (n := .leaf (.const k)) fun a ha => by cases ha
    rw [hintern] at hleaf
    refine (retains_merge h₁.shape (Nat.lt_of_lt_of_le hid h₁.onward.size_le)
      (hleaf.2.2.lt h₁.shape)).bind fun _ g₂ _ h₂ => ?_
    exact retains_prune h₂.shape (h₂.onward.const id k (h₁.onward.const id k hk))

theorem retains_union {b : ClassId} (hb : g.Backed) (ha : a < g.size) (hbsize : b < g.size) :
    Retains g (left (union a b g)) := by
  refine (retains_merge hb.shape ha hbsize).bind fun joined g₁ hmerge h₁ => ?_
  have hb₁ := leads_merge hb ha hbsize
  rw [hmerge] at hb₁
  cases joined with
  | false => exact .refl h₁.shape
  | true =>
    refine (retains_settle hb₁.1 (Nat.lt_of_lt_of_le ha h₁.onward.size_le)).bind ?_
    exact fun _ _ _ h₂ => .refl h₂.shape

/-- A node that is new is entered, and its class is settled. -/
theorem retains_settle_enter (hb : g.Backed) (hn : g.Fresh n) :
    Retains (g.enter n) (left ((settle g.size >>= fun _ => do return (← get).find g.size)
      (g.enter n))) :=
  (retains_settle (backed_enter hb hn.child_lt) size_lt_enter).bind fun _ _ _ h => .refl h.shape

theorem retains_add (hb : g.Backed) (hn : ∀ a ∈ n.children, a < g.size) :
    Retains g (left (add n g)) := by
  rw [add_eq]
  cases hmemo : g.memo[g.canonicalize n]? with
  | some id => exact .refl hb.shape
  | none =>
    have hfresh := fresh_canonicalize hb.shape hn hmemo
    exact (retains_enter hb.shape hfresh).trans (retains_settle_enter hb hfresh)

theorem retains_repair (hb : g.Backed) (hp : g.pending = u :: rest) :
    Retains g (left (repair u { g with pending := rest })) := by
  have hmem : u ∈ g.pending := by
    rw [hp]
    exact List.mem_cons_self
  have hu := hb.entry u (.pending hmem)
  have h := retains_redirect hb.shape hp
  rw [repair_eq]
  cases hmemo : g.memo[g.canonicalize u.1]? with
  | none => exact h
  | some id =>
    have hb' : (g.redirect u rest).Backed := backed_pop (backed_redirect hb hu) fun v hv => by
      show v ∈ g.pending
      rw [hp]
      exact List.mem_cons_of_mem _ hv
    have hid := (hb.entry (g.canonicalize u.1, id) (.memo hmemo)).lt hb.shape
    have hlt : u.2 < g.size := hu.lt hb.shape
    exact h.trans (retains_union hb' hid hlt)

theorem retains_refold (hb : g.Backed) (u : Usage) (rest : List Usage) :
    Retains g (left (refold u { g with foldPending := rest })) := by
  have h : Retains g { g with foldPending := rest } := retains_setFoldPending hb.shape
  rcases refold_cases hb.shape u rest with
    ⟨-, hrun⟩ | ⟨c, l, r, -, -, -, -, hrun⟩ | ⟨c, k, hstored, -, hnone, -, hrun⟩
  · rw [hrun]
    exact h
  · rw [hrun]
    exact h
  · have hr : Relabels g { g with foldPending := rest } :=
      relabels_of_classes_eq hb.shape rfl rfl
    have hb₁ : ({ g with foldPending := rest } : EGraph).Backed :=
      hr.backed hb (fun u hu => hb.entry u (.memo hu)) fun u hu => hb.entry u (.pending hu)
    have hlearn := retains_learn (g := { g with foldPending := rest }) (k := k) h.shape hstored
      hnone
    rw [hrun]
    exact h.trans (hlearn.trans
      (retains_settle (backed_learn hb₁ c _) (lt_of_stored hb.shape hstored)))

theorem retains_drain (fuel : Nat) (stage : Stage) (unions : Nat) {g : EGraph}
    (h : g.Coherent) : Retains g (left (drain fuel stage unions g)) := by
  induction fuel generalizing stage unions g with
  | zero => exact .refl h.shape
  | succ fuel ih =>
    rw [drain_succ]
    rcases takeUsage_cases stage g with
      ⟨htake, -⟩ | ⟨u, rest, hp, htake⟩ | ⟨u, rest, hp, htake⟩
    · rw [htake]
      exact .refl h.shape
    · rw [htake]
      refine (retains_repair h.toBacked hp).bind fun joined g' hrun _ => ih _ _ ?_
      have hc := (repair_coherent h hp).1.1
      rwa [hrun] at hc
    · rw [htake]
      refine (retains_refold h.toBacked u rest).bind fun _ g' hrun _ => ih _ _ ?_
      have hc := (refold_coherent h hp).1.1
      rwa [hrun] at hc

/-- A rebuild that a conflict cuts short has tidied nothing. -/
theorem retains_of_conflict {e : Conflict} (h : g.Coherent) (hrun : rebuild g = .error e g') :
    Retains g g' := by
  have hdrain := retains_drain g.work .congruence 0 h
  rw [rebuild_eq] at hrun
  cases hd : drain g.work .congruence 0 g with
  | ok m g₁ =>
    rw [bind_ok hd] at hrun
    cases hrun
  | error e g₁ =>
    rw [hd] at hdrain
    rw [bind_error hd] at hrun
    cases hrun
    exact hdrain

/-- A rebuild that completes tidies a graph on which no repairs are due. -/
theorem exists_of_rebuild {m : Nat} (h : g.Coherent) (hrun : rebuild g = .ok m g') :
    ∃ g₁, g' = g₁.tidy ∧ Retains g g₁ ∧ g₁.Coherent ∧ g₁.pending = [] := by
  have hdrain := retains_drain g.work .congruence 0 h
  obtain ⟨hcoheres, hnil⟩ := drain_coherent g.work .congruence 0 h (Nat.le_refl _)
  rw [rebuild_eq] at hrun
  obtain ⟨m', g₁, hd, htidy⟩ := bind_eq_ok hrun
  cases htidy
  rw [hd] at hdrain hcoheres
  exact ⟨g₁, rfl, hdrain, hcoheres.1, (hnil m g₁ hd).1⟩

/-! ## Entries that are listed -/

/-- The classes of its children list every entry. -/
def Traced (g : EGraph) : Prop := ∀ u, g.Entry u → ∀ a ∈ u.1.children, g.UsedBy a u

theorem Retains.traced (h : Retains g g') (ht : g.Traced) : g'.Traced := by
  intro u hu
  rcases h.entry u hu with ⟨v, hv, huv⟩ | hused
  · exact usedBy_of_same (fun a ha => h.used a v (ht v hv a ha)) huv
  · exact hused

section Origins

variable {D : Type} {I : Meaning D} {o : Origin D}

/-- What stands is used by the classes of its children. -/
theorem Valid.usedBy (h : Valid I g o) (hu : g.Stands o u) : ∀ a ∈ u.1.children, g.UsedBy a u := by
  obtain ⟨i, hi, hui⟩ := hu
  exact usedBy_of_same (h.complete.used i hi) hui

/-- **A graph in order** lists its entries, as all of them stand. -/
theorem Valid.traced (h : Valid I g o) : g.Traced := by
  intro u hu
  refine h.usedBy ?_
  rcases hu with hu | ⟨hc, hu⟩ | hu
  · exact h.founded.memo u.1 u.2 hu
  · exact h.founded.parents _ _ hc u hu
  · exact h.founded.pending u hu

end Origins

/-- A node that is added is an entry of the graph, or has just been entered. -/
theorem exists_same_of_add {g' : EGraph} (hb : g.Backed) (hn : ∀ a ∈ n.children, a < g.size)
    (hrun : add n g = .ok id g') : ∃ v, g'.Same (n, id) v ∧
      ((g' = g ∧ g.Entry v) ∨ ∀ a ∈ v.1.children, g'.UsedBy a v) := by
  have hs := hb.shape
  have hcan : ∀ j, g.Same (n, j) (g.canonicalize n, j) := fun j =>
    ⟨(canonicalize_canonicalize hs n).symm, rfl⟩
  rw [add_eq] at hrun
  cases hmemo : g.memo[g.canonicalize n]? with
  | some j =>
    rw [hmemo] at hrun
    cases hrun
    exact ⟨(g.canonicalize n, j), (hcan _).trans ⟨rfl, find_find hs j⟩, .inl ⟨rfl, .memo hmemo⟩⟩
  | none =>
    have hfresh := fresh_canonicalize hs hn hmemo
    have henter := retains_enter hs hfresh
    have hsettle := retains_settle_enter hb hfresh
    rw [hmemo] at hrun
    dsimp only at hrun
    rw [hrun] at hsettle
    obtain ⟨_, g₁, -, hget⟩ := bind_eq_ok hrun
    cases hget
    refine ⟨(g.canonicalize n, g.size), ?_,
      .inr fun a ha => hsettle.used a _ (usedBy_enter_size hs hfresh ha)⟩
    exact ⟨((henter.trans hsettle).onward.same (hcan g.size)).1, find_find hsettle.shape _⟩

/-! ## Graphs with the nodes that were added -/

/-- How the rebuilds of a graph have ended: all of them completed; a conflict cut one short, and
none has completed since; or one has completed after another was cut short. -/
inductive Past where
  | whole
  | cut
  | resumed
deriving DecidableEq

namespace Past

def complete : Past → Past
  | whole => whole
  | _ => resumed

def conflict : Past → Past
  | resumed => resumed
  | _ => cut

theorem eq_whole_of_complete {p : Past} (h : p.complete ≠ resumed) : p = whole := by
  cases p <;> simp [complete] at h ⊢

theorem ne_resumed_of_conflict {p : Past} (h : p.conflict ≠ resumed) : p ≠ resumed := by
  cases p <;> simp [conflict] at h ⊢

end Past

/-- The graphs that calls make of the empty one, how their rebuilds have ended, and the nodes that
were added to them, with the class that each was given. -/
inductive Recorded (analysis : Analysis) : Past → List Usage → EGraph → Prop where
  | empty : Recorded analysis .whole [] (empty analysis)
  | add {past log g n id g'} (h : Recorded analysis past log g)
    (hn : ∀ a ∈ n.children, a < g.size) (hrun : add n g = .ok id g') :
    Recorded analysis past ((n, id) :: log) g'
  | union {past log g} (h : Recorded analysis past log g) (a b : ClassId) (ha : a < g.size)
    (hb : b < g.size) : Recorded analysis past log (left (union a b g))
  | rebuild {past log g m g'} (h : Recorded analysis past log g) (hrun : rebuild g = .ok m g') :
    Recorded analysis past.complete log g'
  | conflict {past log g e g'} (h : Recorded analysis past log g)
    (hrun : rebuild g = .error e g') : Recorded analysis past.conflict log g'

/-- Every reachable graph has such a record. -/
theorem Reached.recorded (h : Reached analysis g) : ∃ past log, Recorded analysis past log g := by
  induction h with
  | empty => exact ⟨_, _, .empty⟩
  | @add g hreached n hn ih =>
    obtain ⟨past, log, h⟩ := ih
    obtain ⟨id, g', hrun, -⟩ := add_coherent hreached.orderly.toCoherent hn
    rw [hrun]
    exact ⟨_, _, h.add hn hrun⟩
  | union _ a b ha hb ih =>
    obtain ⟨past, log, h⟩ := ih
    exact ⟨_, _, h.union a b ha hb⟩
  | @rebuild g _ ih =>
    obtain ⟨past, log, h⟩ := ih
    cases hrun : EGraph.rebuild g with
    | ok m g' => exact ⟨_, _, h.rebuild hrun⟩
    | error e g' => exact ⟨_, _, h.conflict hrun⟩

namespace Recorded

variable {past : Past} {log : List Usage}

theorem reached (h : Recorded analysis past log g) : Reached analysis g := by
  induction h with
  | empty => exact .empty
  | add _ hn hrun ih =>
    have hadd := ih.add _ hn
    rwa [hrun] at hadd
  | union _ a b ha hb ih => exact ih.union a b ha hb
  | rebuild _ hrun ih =>
    have hrebuild := ih.rebuild
    rwa [hrun] at hrebuild
  | conflict _ hrun ih =>
    have hrebuild := ih.rebuild
    rwa [hrun] at hrebuild

theorem backed (h : Recorded analysis past log g) : g.Backed := h.reached.backed

theorem add_left (h : Recorded analysis past log g) (n : ENode) (hn : ∀ a ∈ n.children, a < g.size)
    (hid : (success? (EGraph.add n g)).map Prod.fst = some id) :
    Recorded analysis past ((n, id) :: log) (left (EGraph.add n g)) := by
  cases hrun : EGraph.add n g with
  | ok id' g' =>
    rw [hrun] at hid
    cases hid
    exact h.add hn hrun
  | error e g' =>
    rw [hrun] at hid
    cases hid

theorem conflict_left (h : Recorded analysis past log g)
    (hrun : success? (EGraph.rebuild g) = none) :
    Recorded analysis past.conflict log (left (EGraph.rebuild g)) := by
  cases hrebuild : EGraph.rebuild g with
  | ok m g' =>
    rw [hrebuild] at hrun
    cases hrun
  | error e g' => exact h.conflict hrebuild

/-- While all rebuilds complete, the graph is in order, and the nodes stand where they were put. -/
theorem valid (h : Recorded analysis past log g) (hp : past = .whole) :
    ∃ o, Valid (anyMeaning analysis) g o ∧ ∀ u ∈ log, g.Stands o u := by
  induction h with
  | empty =>
    exact ⟨⟨fun _ => .leaf default, fun _ => ()⟩, valid_empty (anyMeaning analysis) _,
      fun u hu => by cases hu⟩
  | @add past log g n id g' _ hn hrun ih =>
    obtain ⟨o, hv, hlog⟩ := ih hp
    obtain ⟨id', g'', o', hrun', ha⟩ := add_spec hv hn (d := ()) trivial
    rw [hrun] at hrun'
    cases hrun'
    refine ⟨o', ha.valid, fun u hu => ?_⟩
    rcases List.mem_cons.1 hu with rfl | hu
    · exact ha.stands
    · exact ha.extended.stands (hlog u hu)
  | @union past log g _ a b ha hb ih =>
    obtain ⟨o, hv, hlog⟩ := ih hp
    rcases union_spec hv.toCore hv.settled (hv.known.upTo a b) ha hb rfl with
      ⟨g', o', hrun, hu⟩ | ⟨e, hrun, -⟩
    · rw [hrun]
      exact ⟨o', hu.valid, fun u h => (hu.extended fun _ => True).stands (hlog u h)⟩
    · rw [hrun]
      exact ⟨o, hv, hlog⟩
  | @rebuild past log g m g' _ hrun ih =>
    obtain ⟨o, hv, hlog⟩ := ih (Past.eq_whole_of_complete (by rw [hp]; simp))
    obtain ⟨o', hv', -, hext⟩ := rebuild_ok hv (fun _ => True) hrun
    exact ⟨o', hv', fun u hu => hext.stands (hlog u hu)⟩
  | @conflict past => cases past <;> cases hp

/-- Until a rebuild completes after another was cut short, entries and added nodes are used. -/
theorem traced (h : Recorded analysis past log g) (hp : past ≠ .resumed) :
    g.Traced ∧ ∀ u ∈ log, ∀ a ∈ u.1.children, g.UsedBy a u := by
  induction h with
  | empty =>
    exact ⟨(valid_empty (anyMeaning analysis) ⟨fun _ => .leaf default, fun _ => ()⟩).traced,
      fun u hu => by cases hu⟩
  | @add past log g n id g' h hn hrun ih =>
    obtain ⟨ht, hlog⟩ := ih hp
    have hret := retains_add h.backed hn
    rw [hrun] at hret
    refine ⟨hret.traced ht, fun u hu => ?_⟩
    rcases List.mem_cons.1 hu with rfl | hu
    · obtain ⟨v, hsame, ⟨rfl, hv⟩ | hused⟩ := exists_same_of_add h.backed hn hrun
      · exact usedBy_of_same (ht v hv) hsame
      · exact usedBy_of_same hused hsame
    · exact fun a ha => hret.used a u (hlog u hu a ha)
  | union h a b ha hb ih =>
    obtain ⟨ht, hlog⟩ := ih hp
    have hret := retains_union h.backed ha hb
    exact ⟨hret.traced ht, fun u hu a ha => hret.used a u (hlog u hu a ha)⟩
  | rebuild h hrun _ =>
    -- entries of one form are in one class, as all rebuilds have completed
    obtain rfl := Past.eq_whole_of_complete hp
    obtain ⟨o, hv, hlog⟩ := (h.rebuild hrun).valid rfl
    exact ⟨hv.traced, fun u hu => hv.usedBy (hlog u hu)⟩
  | conflict h hrun ih =>
    obtain ⟨ht, hlog⟩ := ih (Past.ne_resumed_of_conflict hp)
    have hret := retains_of_conflict h.reached.orderly.toCoherent hrun
    exact ⟨hret.traced ht, fun u hu a ha => hret.used a u (hlog u hu a ha)⟩

/-- Added nodes are used in a class like their own, also after conflicts. -/
theorem near (h : Recorded analysis past log g) :
    ∀ u ∈ log, ∀ a ∈ u.1.children, g.UsedNear a u := by
  induction h with
  | empty => exact fun u hu => by cases hu
  | @add past log g n id g' h hn hrun ih =>
    have hret := retains_add h.backed hn
    rw [hrun] at hret
    intro u hu
    rcases List.mem_cons.1 hu with rfl | hu
    · obtain ⟨v, hsame, ⟨rfl, hv⟩ | hused⟩ := exists_same_of_add h.backed hn hrun
      · exact usedNear_of_same (h.reached.orderly.entry_used v hv) hsame
      · exact usedNear_of_same (fun a ha => (hused a ha).near) hsame
    · exact fun a ha => hret.near a u (ih u hu a ha)
  | union h a b ha hb ih =>
    exact fun u hu c hc => (retains_union h.backed ha hb).near c u (ih u hu c hc)
  | rebuild h hrun ih =>
    obtain ⟨g₁, rfl, hret, hc, hp⟩ := exists_of_rebuild h.reached.orderly.toCoherent hrun
    exact fun u hu a ha =>
      (hret.near a u (ih u hu a ha)).tidy hc.shape (hc.recalled.remembers_of_nil hp)
  | conflict h hrun ih =>
    have hret := retains_of_conflict h.reached.orderly.toCoherent hrun
    exact fun u hu a ha => hret.near a u (ih u hu a ha)

/-- **No usage is ever lost.**  For every node that was added, and each of its children, the class
of the child has a parent of the node's canonical form, in a class like the node's.  It is in the
node's very class, unless a rebuild has completed after a conflict had cut another short. -/
theorem keeps_usages (h : Recorded analysis past log g) (hn : (n, id) ∈ log)
    (ha : a ∈ n.children) :
    (∃ c, g.classAt? a = some c ∧ ∃ v ∈ c.parents,
      g.canonicalize v.1 = g.canonicalize n ∧ g.Alike v.2 id) ∧
    (past ≠ .resumed → ∃ c, g.classAt? a = some c ∧ ∃ v ∈ c.parents,
      g.canonicalize v.1 = g.canonicalize n ∧ g.find v.2 = g.find id) :=
  ⟨h.near _ hn a ha, fun hp => (h.traced hp).2 _ hn a ha⟩

end Recorded

/-- The nodes of a plus on a variable, and two constants, the last one first. -/
def doubtfulLog : List Usage :=
  [(.leaf (.const (.int 2)), 3), (.leaf (.const (.int 1)), 2), (.unary .plus 0, 1),
    (.leaf (.var "x"), 0)]

/-- The plus is joined with one, and its variable with two. -/
def doubtful : EGraph :=
  left (union 0 3 (left (union 1 2 (left (add (.leaf (.const (.int 2)))
    (left (add (.leaf (.const (.int 1))) (left (add (.unary .plus 0)
      (left (add (.leaf (.var "x")) (empty .constantFolding))))))))))))

theorem recorded_doubtful : Recorded .constantFolding .whole doubtfulLog doubtful := by
  refine .union (.union (.add_left (.add_left (.add_left (.add_left .empty _ ?_ ?_) _ ?_ ?_)
    _ ?_ ?_) _ ?_ ?_) 1 2 ?_ ?_) 0 3 ?_ ?_ <;> decide +kernel

/-- The rebuild finds that the plus is two, and stops.  Its class, which is one, has dropped the
plus, and its variable lists it still. -/
theorem keeps_usages_doubtful :
    Recorded .constantFolding .cut doubtfulLog (left (rebuild doubtful)) ∧
    (.unary .plus 0, 1) ∈ doubtfulLog ∧ 0 ∈ (.unary .plus 0 : ENode).children ∧
    (left (rebuild doubtful)).clean = false ∧
    (left (rebuild doubtful)).nodesAt 1 = [.leaf (.const (.int 1))] ∧
    ∃ c, (left (rebuild doubtful)).classAt? 0 = some c ∧ ∃ v ∈ c.parents,
      (left (rebuild doubtful)).canonicalize v.1 =
        (left (rebuild doubtful)).canonicalize (.unary .plus 0) ∧
      (left (rebuild doubtful)).find v.2 = (left (rebuild doubtful)).find 1 := by
  have hcut := recorded_doubtful.conflict_left (by decide +kernel)
  have hmem : (.unary .plus 0, 1) ∈ doubtfulLog := by decide
  have hchild : 0 ∈ (.unary .plus 0 : ENode).children := by decide
  exact ⟨hcut, hmem, hchild, by decide +kernel, by decide +kernel,
    (hcut.keeps_usages hmem hchild).2 (by decide)⟩

/-- Two variables, their negations and two constants, the last one first. -/
def partedLog : List Usage :=
  [(.leaf (.const (.int 2)), 5), (.leaf (.const (.int 1)), 4), (.unary .minus 1, 3),
    (.unary .minus 0, 2), (.leaf (.var "y"), 1), (.leaf (.var "x"), 0)]

/-- The variables are joined, and their negations are one and two. -/
def parted : EGraph :=
  left (union 0 1 (left (union 3 5 (left (union 2 4 (left (add (.leaf (.const (.int 2)))
    (left (add (.leaf (.const (.int 1))) (left (add (.unary .minus 1) (left (add (.unary .minus 0)
      (left (add (.leaf (.var "y")) (left (add (.leaf (.var "x"))
        (empty .constantFolding))))))))))))))))))

theorem recorded_parted : Recorded .constantFolding .whole partedLog parted := by
  refine .union (.union (.union (.add_left (.add_left (.add_left (.add_left (.add_left
    (.add_left .empty _ ?_ ?_) _ ?_ ?_) _ ?_ ?_) _ ?_ ?_) _ ?_ ?_) _ ?_ ?_) 2 4 ?_ ?_)
    3 5 ?_ ?_) 0 1 ?_ ?_ <;> decide +kernel

/-- The first rebuild stops at the negations, which are one node now; the second completes, and of
the two entries of that node it keeps the one in the class of two. -/
theorem not_usedBy_parted : ∃ g, Recorded .constantFolding .resumed partedLog g ∧
    (.unary .minus 0, 2) ∈ partedLog ∧ ¬g.UsedBy 0 (.unary .minus 0, 2) := by
  have hcut := recorded_parted.conflict_left (by decide +kernel)
  have hlists : (success? (rebuild (left (rebuild parted)))).map (fun r =>
      ((r.2.classAt? 0).map fun c => c.parents.toList.map fun v => r.2.find v.2, r.2.find 2)) =
        some (some [3], 2) := by decide +kernel
  obtain ⟨⟨m, g⟩, hsome, hlists⟩ := Option.map_eq_some_iff.1 hlists
  simp only [Prod.mk.injEq] at hlists
  refine ⟨g, hcut.rebuild (eq_ok_of_success? hsome), by decide, ?_⟩
  rintro ⟨c, hc, v, hv, -, hfind⟩
  rw [hc, Option.map_some, Option.some.injEq] at hlists
  have hmem : g.find v.2 ∈ c.parents.toList.map fun v => g.find v.2 :=
    List.mem_map_of_mem (Array.mem_toList_iff.2 hv)
  rw [hlists.1, List.mem_singleton] at hmem
  exact absurd (hmem.symm.trans (Eq.trans hfind hlists.2)) (by decide)

/-- **The very class** is not always there: of two equal entries, for nodes in different classes, one
may be lost. -/
theorem not_keeps_usages :
    ¬ ∀ (analysis : Analysis) (past : Past) (log : List Usage) (g : EGraph) (n : ENode)
        (id a : ClassId), Recorded analysis past log g → (n, id) ∈ log → a ∈ n.children →
      ∃ c, g.classAt? a = some c ∧ ∃ v ∈ c.parents,
        g.canonicalize v.1 = g.canonicalize n ∧ g.find v.2 = g.find id := by
  intro hall
  obtain ⟨g, hg, hmem, hnot⟩ := not_usedBy_parted
  exact hnot (hall _ _ _ g _ _ 0 hg hmem (by decide))

end EqSat.EGraph
