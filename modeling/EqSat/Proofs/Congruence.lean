import EqSat.Proofs.Closure

/-!
# The partition without an analysis

Without constant folding a graph knows no constants, so that no call can fail, and the closure
of a script says nothing of constants that were not added: on the added nodes it is the least
congruence that contains the unions.  After a rebuild that congruence is the partition of the
added nodes, which depends on what was added and united, not on the order of the unions nor on
the rebuilds in between.

    closure_added_iff               the closure on the added nodes is the congruence
    runs_runCalls                   no call fails
    partition_eq_congruence         the partition after a rebuild
-/

namespace EqSat

/-- The least congruence on the added nodes, known by their numbers, that contains the unions. -/
inductive Congruent (calls : List Call) : Nat → Nat → Prop where
  | refl (i) : Congruent calls i i
  | symm {i j} (h : Congruent calls i j) : Congruent calls j i
  | trans {i j k} (h : Congruent calls i j) (h' : Congruent calls j k) : Congruent calls i k
  | union {i j} (h : .union i j ∈ calls) : Congruent calls i j
  | congr {i j m n} (hi : (addedNodes calls)[i]? = some m) (hj : (addedNodes calls)[j]? = some n)
    (hmn : m.outline = n.outline)
    (h : ∀ c ∈ m.children.zip n.children, Congruent calls c.1 c.2) : Congruent calls i j

variable {calls calls' : List Call}

/-- The same nodes and the same unions have one congruence, in whatever order they come. -/
theorem Congruent.of_same_unions (hnodes : addedNodes calls = addedNodes calls')
    (hunions : ∀ i j, .union i j ∈ calls → .union i j ∈ calls') {i j : Nat}
    (h : Congruent calls i j) : Congruent calls' i j := by
  induction h with
  | refl i => exact .refl i
  | symm _ ih => exact ih.symm
  | trans _ _ ih ih' => exact ih.trans ih'
  | union hij => exact .union (hunions _ _ hij)
  | congr hi hj hmn _ ih => exact .congr (hnodes ▸ hi) (hnodes ▸ hj) hmn ih

/-! ## The closure on the added nodes -/

/-- An added node that a point stands for: the node itself, or a leaf of the constant. -/
def Point.StandsFor (nodes : List (Node Nat)) : Point → Nat → Prop
  | .added i, j => i = j
  | .const c, j => nodes[j]? = some (.leaf (.const c))

/-- Two added nodes that one point stands for are congruent. -/
theorem congruent_of_standsFor {p : Point} {i j : Nat} (hi : p.StandsFor (addedNodes calls) i)
    (hj : p.StandsFor (addedNodes calls) j) : Congruent calls i j := by
  cases p with
  | added k =>
    obtain rfl : k = i := hi
    obtain rfl : k = j := hj
    exact .refl k
  | const c => exact .congr hi hj rfl (by simp [Node.children])

/-- Points with one node are equal, or each stands for an added node. -/
theorem standsFor_of_node {p q : Point} {m n : Node Nat}
    (hp : p.node? (addedNodes calls) = some m) (hq : q.node? (addedNodes calls) = some n)
    (hmn : m.outline = n.outline) (h : ∀ c ∈ m.children.zip n.children, Congruent calls c.1 c.2) :
    p = q ∨ ∃ i j, p.StandsFor (addedNodes calls) i ∧ q.StandsFor (addedNodes calls) j ∧
      Congruent calls i j := by
  have hleaf : ∀ {c : Constant} {m : Node Nat},
      (Node.leaf (.const c) : Node Nat).outline = m.outline → m = .leaf (.const c) := by
    intro c m hm
    cases m <;> simp only [Node.outline, Node.map, Node.leaf.injEq, reduceCtorEq] at hm
    rw [hm]
  cases p with
  | added i =>
    cases q with
    | added j => exact Or.inr ⟨i, j, rfl, rfl, .congr hp hq hmn h⟩
    | const d =>
      obtain rfl := Option.some.inj hq
      obtain rfl := hleaf hmn.symm
      exact Or.inr ⟨i, i, rfl, hp, .refl i⟩
  | const c =>
    obtain rfl := Option.some.inj hp
    obtain rfl := hleaf hmn
    cases q with
    | added j => exact Or.inr ⟨j, j, hq, rfl, .refl j⟩
    | const d =>
      cases hq
      exact Or.inl rfl

/-- What the closure relates stands for congruent nodes. -/
theorem congruent_of_closure {p q : Point} (h : Closure .empty calls p q) :
    p = q ∨ ∃ i j, p.StandsFor (addedNodes calls) i ∧ q.StandsFor (addedNodes calls) j ∧
      Congruent calls i j := by
  induction h with
  | refl p => exact Or.inl rfl
  | symm _ ih =>
    rcases ih with rfl | ⟨i, j, hi, hj, hij⟩
    · exact Or.inl rfl
    · exact Or.inr ⟨j, i, hj, hi, hij.symm⟩
  | trans _ _ ih ih' =>
    rcases ih with rfl | ⟨i, j, hi, hj, hij⟩
    · exact ih'
    · rcases ih' with rfl | ⟨j', k, hj', hk, hjk⟩
      · exact Or.inr ⟨i, j, hi, hj, hij⟩
      · exact Or.inr ⟨i, k, hi, hk, (hij.trans (congruent_of_standsFor hj hj')).trans hjk⟩
  | union hij => exact Or.inr ⟨_, _, rfl, rfl, .union hij⟩
  | congr hp hq hmn _ ih =>
    refine standsFor_of_node hp hq hmn fun c hc => ?_
    rcases ih c hc with hcd | ⟨i, j, hi, hj, hij⟩
    · obtain hcd : c.1 = c.2 := Point.added.inj hcd
      rw [hcd]
      exact .refl c.2
    · obtain rfl : c.1 = i := hi
      obtain rfl : c.2 = j := hj
      exact hij
  | fold ha => cases ha

/-- **The closure** without constant folding is the congruence, on the added nodes. -/
theorem closure_added_iff {i j : Nat} :
    Closure .empty calls (.added i) (.added j) ↔ Congruent calls i j := by
  constructor
  · intro h
    rcases congruent_of_closure h with hij | ⟨i', j', hi, hj, hij⟩
    · obtain rfl := Point.added.inj hij
      exact .refl i
    · obtain rfl : i = i' := hi
      obtain rfl : j = j' := hj
      exact hij
  · intro h
    induction h with
    | refl i => exact .refl _
    | symm _ ih => exact ih.symm
    | trans _ _ ih ih' => exact ih.trans ih'
    | union hij => exact .union hij
    | congr hi hj hmn _ ih => exact .congr hi hj hmn ih

/-! ## Graphs without constants -/

namespace EGraph

/-- No class carries a constant, nor will one. -/
structure Bare (g : EGraph) : Prop where
  analysis : g.analysis = .empty
  data : ∀ id c, g.stored? id = some c → c.data = none

/-- A step that has succeeded on a graph without constants and left one. -/
def Runs {α : Type} : EStateM.Result Conflict EGraph α → Prop
  | .ok _ g => g.Bare
  | .error _ _ => False

variable {g g' : EGraph} {α β : Type}

theorem Runs.bind {s : Update α} {f : α → Update β} (hs : Runs (s g))
    (hf : ∀ a g', g'.Bare → Runs (f a g')) : Runs ((s >>= f) g) := by
  cases h : s g with
  | ok a g' =>
    rw [h] at hs
    rw [bind_ok h]
    exact hf a g' hs
  | error e g' =>
    rw [h] at hs
    exact hs.elim

theorem bare_empty : (empty .empty).Bare := ⟨rfl, fun id c hc => by simp [stored?, empty] at hc⟩

theorem Bare.data_of_classAt (h : g.Bare) {id : ClassId} {c : EClass}
    (hc : g.classAt? id = some c) : c.data = none := h.data _ c hc

theorem Bare.constantAt_eq (h : g.Bare) (id : ClassId) : g.constantAt? id = none := by
  cases hc : g.classAt? id with
  | none => rw [constantAt?, hc, Option.bind_none]
  | some c => rw [constantAt?, hc, Option.bind_some, h.data_of_classAt hc]

theorem Bare.foldNode_eq (h : g.Bare) (n : ENode) : g.foldNode n = none := by
  rw [foldNode, h.analysis]

/-- Only the stored classes and the analysis matter. -/
theorem Bare.of_classes_eq (h : g.Bare) (ha : g'.analysis = g.analysis)
    (hc : g'.classes = g.classes) : g'.Bare := by
  refine ⟨ha.trans h.analysis, fun id c hid => h.data id c ?_⟩
  rwa [stored?, ← hc]

theorem bare_enter (h : g.Bare) (n : ENode) : (g.enter n).Bare := by
  refine ⟨h.analysis, fun id c hc => ?_⟩
  unfold stored? enter at hc
  dsimp only at hc
  rw [join_foldl_addParent, Array.getElem?_push] at hc
  obtain ⟨d, hd, rfl⟩ := Option.map_eq_some_iff.1 hc
  split at hd
  · cases hd
    exact h.foldNode_eq n
  · exact h.data id d hd

theorem bare_absorb (h : g.Bare) (root : ClassId) (other : EClass) :
    (g.absorb root other none).Bare := by
  refine ⟨h.analysis, fun id c hc => ?_⟩
  unfold stored? absorb at hc
  dsimp only at hc
  rw [Array.getElem?_modify, Array.getElem?_setIfInBounds] at hc
  split at hc
  · obtain ⟨d, hd, hdc⟩ := Option.map_eq_some_iff.1 (Option.join_eq_some_iff.1 hc)
    cases d with
    | none => cases hdc
    | some d =>
      cases hdc
      rfl
  · split at hc
    · split at hc <;> cases hc
    · exact h.data id c hc

theorem runs_merge (h : g.Bare) (a b : ClassId) : Runs (merge a b g) := by
  have hinto : ∀ x y : EClass, x.data = none → y.data = none → Runs (mergeInto x y g) := by
    intro x y hx hy
    have hrun : mergeInto x y g = .ok true (g.absorb x.id y none) := by
      unfold mergeInto
      rw [hx, hy]
      rfl
    rw [hrun]
    exact bare_absorb h x.id y
  rw [merge_eq]
  cases ha : g.classAt? a with
  | none => exact h
  | some x =>
    cases hb : g.classAt? b with
    | none => exact h
    | some y =>
      dsimp only
      have hx := h.data_of_classAt ha
      have hy := h.data_of_classAt hb
      split
      · exact h
      · split
        · exact hinto y x hy hx
        · exact hinto x y hx hy

theorem runs_settle (h : g.Bare) (id : ClassId) : Runs (settle id g) := by
  rw [settle_eq, h.constantAt_eq]
  exact h

theorem runs_add (h : g.Bare) (n : ENode) : Runs (add n g) := by
  rw [add_eq]
  cases g.memo[g.canonicalize n]? with
  | some id => exact h
  | none => exact (runs_settle (bare_enter h _) _).bind fun _ _ h' => h'

theorem runs_union (h : g.Bare) (a b : ClassId) : Runs (union a b g) := by
  refine (runs_merge h a b).bind fun joined g' h' => ?_
  cases joined with
  | true => exact (runs_settle h' a).bind fun _ _ h'' => h''
  | false => exact h'

theorem runs_repair (h : g.Bare) (u : Usage) : Runs (repair u g) := by
  rw [show repair u g = repair u { g with pending := g.pending } from rfl, repair_eq]
  have hmemo : (g.redirect u g.pending).Bare := h.of_classes_eq rfl rfl
  cases g.memo[g.canonicalize u.1]? with
  | some id => exact runs_union hmemo id u.2
  | none => exact hmemo

theorem runs_refold (h : g.Bare) (u : Usage) : Runs (refold u g) := by
  rw [refold_run]
  cases hc : g.classAt? u.2 with
  | none => exact h
  | some c =>
    dsimp only
    rw [h.data_of_classAt hc, h.foldNode_eq]
    exact h

theorem runs_drain (fuel : Nat) (stage : Stage) (unions : Nat) {g : EGraph} (h : g.Bare) :
    Runs (drain fuel stage unions g) := by
  induction fuel generalizing stage unions g with
  | zero => exact h
  | succ fuel ih =>
    rw [drain_succ]
    rcases takeUsage_cases stage g with
      ⟨htake, -⟩ | ⟨u, rest, -, htake⟩ | ⟨u, rest, -, htake⟩
    · rw [htake]
      exact h
    · rw [htake]
      have h₁ : ({ g with pending := rest } : EGraph).Bare := h.of_classes_eq rfl rfl
      exact (runs_repair h₁ u).bind fun joined g' h' => ih _ _ h'
    · rw [htake]
      have h₁ : ({ g with foldPending := rest } : EGraph).Bare := h.of_classes_eq rfl rfl
      exact (runs_refold h₁ u).bind fun _ g' h' => ih _ _ h'

theorem runs_rebuild (h : g.Bare) : Runs (rebuild g) := by
  rw [rebuild_eq]
  refine (runs_drain g.work .congruence 0 h).bind fun unions g' h' => ⟨h'.analysis, ?_⟩
  intro id c hc
  change g'.tidy.stored? id = some c at hc
  rw [stored_tidy] at hc
  obtain ⟨d, hd, rfl⟩ := Option.map_eq_some_iff.1 hc
  exact h'.data id d hd

end EGraph

/-- No call fails on a graph without constants. -/
theorem runs_runCalls (calls : List Call) (ids : Array ClassId) {g : EGraph} (h : g.Bare) :
    EGraph.Runs (runCalls calls ids g) := by
  induction calls generalizing ids g with
  | nil => exact h
  | cons c cs ih =>
    have hstep : EGraph.Runs (c.run ids g) := by
      cases c with
      | add n => exact (EGraph.runs_add h _).bind fun _ _ h' => h'
      | union i j => exact (EGraph.runs_union h _ _).bind fun _ _ h' => h'
      | rebuild => exact (EGraph.runs_rebuild h).bind fun _ _ h' => h'
    exact hstep.bind fun ids' g' h' => ih ids' h'

/-! ## The partition -/

/-- The graph finds two added nodes equal exactly when they are congruent, and every class is one
of an added node. -/
structure Partitioned (calls : List Call) (ids : Array ClassId) (g : EGraph) : Prop where
  size : ids.size = (addedNodes calls).length
  equivalent : ∀ i j, i < ids.size → j < ids.size →
    (g.equivalent (ids.getD i 0) (ids.getD j 0) = true ↔ Congruent calls i j)
  covered : ∀ id, id < g.size → ∃ i, i < ids.size ∧ g.equivalent id (ids.getD i 0) = true

/-- A script of calls and a rebuild leave the congruence as the partition. -/
theorem exists_partitioned (h : Closed 0 calls) :
    ∃ ids g, runCalls (calls ++ [.rebuild]) #[] (.empty .empty) = .ok ids g ∧
      Partitioned calls ids g := by
  rcases runCalls_rebuild .empty h with ⟨ids, g, o, hrun, hran, hp, hf⟩ | ⟨e, g, hrun, -⟩
  · have hadded : addedNodes (calls ++ [.rebuild]) = addedNodes calls := by
      rw [addedNodes_append]
      exact List.append_nil _
    refine ⟨ids, g, hrun, by rw [hran.size, hadded], fun i j hi hj => ?_, fun id hid => ?_⟩
    · rw [EGraph.equivalent, beq_iff_eq, ← closure_added_iff, ← closure_append_rebuild]
      exact ⟨closure_of_find_eq hran hi hj, fun hij =>
        Sum.inl.inj (place_eq_of_closure hran hp hf hij)⟩
    · obtain ⟨i, hi, hfi⟩ := hran.covered id hid
      exact ⟨i, hi, by rw [EGraph.equivalent, beq_iff_eq, hfi]⟩
  · have hruns := runs_runCalls (calls ++ [.rebuild]) #[] EGraph.bare_empty
    rw [hrun] at hruns
    exact hruns.elim

/-- **The partition.**  Without an analysis, calls and a rebuild never fail, and make two added
nodes equal exactly when the least congruence that contains the unions relates them.  Other
calls that add the same nodes and request the same unions, in any order and with rebuilds at
other places, end in the same partition. -/
theorem partition_eq_congruence (calls : List Call) (h : Closed 0 calls) :
    ∃ ids g, runCalls (calls ++ [.rebuild]) #[] (.empty .empty) = .ok ids g ∧
      Partitioned calls ids g ∧
      ∀ calls', Closed 0 calls' → addedNodes calls' = addedNodes calls →
        (∀ i j, .union i j ∈ calls' ↔ .union i j ∈ calls) →
        ∃ ids' g', runCalls (calls' ++ [.rebuild]) #[] (.empty .empty) = .ok ids' g' ∧
          ids'.size = ids.size ∧ ∀ i j, i < ids.size → j < ids.size →
            g'.equivalent (ids'.getD i 0) (ids'.getD j 0) =
              g.equivalent (ids.getD i 0) (ids.getD j 0) := by
  obtain ⟨ids, g, hrun, hpart⟩ := exists_partitioned h
  refine ⟨ids, g, hrun, hpart, fun calls' h' hnodes hunions => ?_⟩
  obtain ⟨ids', g', hrun', hpart'⟩ := exists_partitioned h'
  have hsize : ids'.size = ids.size := by rw [hpart'.size, hpart.size, hnodes]
  refine ⟨ids', g', hrun', hsize, fun i j hi hj => ?_⟩
  rw [Bool.eq_iff_iff, hpart'.equivalent i j (hsize ▸ hi) (hsize ▸ hj), hpart.equivalent i j hi hj]
  exact ⟨.of_same_unions hnodes fun i j => (hunions i j).1,
    .of_same_unions hnodes.symm fun i j => (hunions i j).2⟩

/-- With `x` joined to `y` their negations are equal, the second being added after the join. -/
theorem partition_eq_congruence_minus :
    Closed 0 [.add (.leaf (.var "x")), .add (.leaf (.var "y")), .add (.unary .minus 0),
        .union 0 1, .add (.unary .minus 1)] ∧
      ∃ ids g, runCalls [.add (.leaf (.var "x")), .add (.leaf (.var "y")),
          .add (.unary .minus 0), .union 0 1, .add (.unary .minus 1), .rebuild] #[]
          (.empty .empty) = .ok ids g ∧
        g.equivalent (ids.getD 2 0) (ids.getD 3 0) = true ∧
        Partitioned [.add (.leaf (.var "x")), .add (.leaf (.var "y")), .add (.unary .minus 0),
          .union 0 1, .add (.unary .minus 1)] ids g := by
  have hclosed : Closed 0 [.add (.leaf (.var "x")), .add (.leaf (.var "y")),
      .add (.unary .minus 0), .union 0 1, .add (.unary .minus 1)] := by decide
  obtain ⟨ids, g, hrun, hpart, -⟩ := partition_eq_congruence _ hclosed
  have hsize : ids.size = 4 := hpart.size
  refine ⟨hclosed, ids, g, hrun, (hpart.equivalent 2 3 (by omega) (by omega)).2 ?_, hpart⟩
  refine .congr (m := .unary .minus 0) (n := .unary .minus 1) rfl rfl rfl fun c hc => ?_
  obtain rfl := List.mem_singleton.1 hc
  exact .union (by decide)

end EqSat
