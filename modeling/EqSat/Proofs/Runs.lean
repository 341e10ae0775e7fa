import EqSat.Proofs.History
import EqSat.Proofs.Terms

/-!
# Runs of the runner

A term whose nodes have values can be added node by node, and the class of its root has the
value of the root.  From the graph that holds the term on, everything that the runner does is a
history, with the limits deciding only where it ends.  A run that meets no conflict leaves a
tidy graph.

    addTerm_spec         a term of known value is added
    saturate_spec        the graphs of a saturation, from the seeded one on
-/

namespace EqSat

open EGraph

variable {D : Type} {I : Meaning D} {g g' start : EGraph} {o o' o₀ : Origin D} {rules : List Rule}
  {graphs : List EGraph} {P : EGraph → Origin D → Prop}

/-! ## Seeds -/

/-- The first `ids.size` nodes of a term have been added. -/
structure Seeding (I : Meaning D) (ns : List (Node Nat)) (value : Nat → D) (ids : Array ClassId)
    (g : EGraph) (o : Origin D) : Prop where
  valid : Valid I g o
  lt : ∀ i c, ids[i]? = some c → c < g.size ∧ o.value c = value i
  confined : ∀ V : D → Prop, (∀ i, i < ns.length → V (value i)) → g.Confined V o
  origin : ∀ i, i < g.size → IsConstant (o.node i) ∨
    ∃ k n, ns[k]? = some n ∧ (o.node i).outline = n.outline ∧ o.value i = value k
  stands : ∀ (i : Nat) (c : ClassId) (n : Node Nat), ids[i]? = some c → ns[i]? = some n →
    g.Stands o (n.map fun j => ids.getD j 0, c)

/-- Nodes of a term stand in the classes that they were added to. -/
def Standing (g : EGraph) (o : Origin D) (ns : List (Node Nat)) (ids : Array ClassId) : Prop :=
  ∀ (i : Nat) (c : ClassId) (n : Node Nat), ids[i]? = some c → ns[i]? = some n →
    g.Stands o (n.map fun j => ids.getD j 0, c)

/-- One more node stands in a later graph, and the others still do. -/
theorem standing_push {ns : List (Node Nat)} {ids : Array ClassId} {n : Node Nat} {id : ClassId}
    {new : ENode → Prop}
    (hns : ∀ (i : Nat) (n : Node Nat), ns[i]? = some n → ∀ c ∈ n.children, c < i)
    (hext : Extends new g o g' o') (h : Standing g o ns ids) (hn : ns[ids.size]? = some n)
    (hid : g'.Stands o' (n.map fun j => ids.getD j 0, id)) : Standing g' o' ns (ids.push id) := by
  intro i c m hc hm
  -- the children of a node stand before it
  have hmap : i ≤ ids.size → (m.map fun j => (ids.push id).getD j 0) =
      m.map fun j => ids.getD j 0 := fun hi =>
    map_getD_push (fun j hj => Nat.lt_of_lt_of_le (hns i m hm j hj) hi) id 0
  rw [Array.getElem?_push] at hc
  split at hc
  · next hi =>
    cases hc
    subst hi
    obtain rfl := Option.some.inj (hn.symm.trans hm)
    rw [hmap (Nat.le_refl _)]
    exact hid
  · rw [hmap (Nat.le_of_lt (Array.getElem?_eq_some_iff.1 hc).1)]
    exact hext.stands (h i c m hc hm)

/-- The value of an added node is what its place in the term has. -/
theorem seeded_add {ns : List (Node Nat)} {value : Nat → D} {ids : Array ClassId} {n : Node Nat}
    (h : Seeding I ns value ids g o)
    (hns : ∀ (i : Nat) (n : Node Nat), ns[i]? = some n → ∀ c ∈ n.children, c < i)
    (hn : ns[ids.size]? = some n)
    (hd : I.Holds (n.map value) (value ids.size)) :
    ∃ id g' o', add (n.map fun i => ids.getD i 0) g = .ok id g' ∧
      Seeding I ns value (ids.push id) g' o' := by
  have hchild := hns _ n hn
  have hids : ∀ i ∈ n.children, ids.getD i 0 < g.size ∧ o.value (ids.getD i 0) = value i := by
    intro i hi
    have hlt := hchild i hi
    exact h.lt i _ (by simp [Array.getD_eq_getD_getElem?, hlt])
  have hlt : ∀ a ∈ (n.map fun i => ids.getD i 0).children, a < g.size :=
    Node.forall_mem_children_map.2 fun i hi => (hids i hi).1
  have hmap : (n.map fun i => ids.getD i 0).map o.value = n.map value := by
    rw [Node.map_map]
    exact Node.map_congr fun i hi => (hids i hi).2
  obtain ⟨id, g', o', hrun, hadded⟩ := add_spec h.valid hlt (by rw [hmap]; exact hd)
  have ⟨hvalid, hext, hid, hstands, hvalue, _, _⟩ := hadded
  refine ⟨id, g', o', hrun, hvalid, ?_, fun V hV => ?_, ?_, ?_⟩
  · intro i c hc
    rw [Array.getElem?_push] at hc
    split at hc
    · next hi =>
      cases hc
      rw [hi]
      exact ⟨hid, hvalue⟩
    · obtain ⟨hclt, hcv⟩ := h.lt i c hc
      exact ⟨Nat.lt_of_lt_of_le hclt hext.size_le, by rw [hext.value c hclt, hcv]⟩
  · exact hadded.confined (h.confined V hV) (hV _ (List.getElem?_eq_some_iff.1 hn).1)
  · intro i hi
    by_cases hold : i < g.size
    · rw [hext.node i hold, hext.value i hold]
      exact h.origin i hold
    · refine (hext.fresh i (Nat.le_of_not_lt hold) hi).imp_right fun hnode => ?_
      refine ⟨ids.size, n, hn, ?_, ?_⟩
      · rw [hnode, canonicalize, Node.outline_map, Node.outline_map]
      · -- the new node holds the value that its children give it
        have hholds := hvalid.sound.holds i hi
        have hmap' : (o'.node i).map o'.value = n.map value := by
          rw [hnode, ← hmap, ← h.valid.sound.map_canonicalize hlt]
          refine Node.map_congr fun a ha => hext.value a ?_
          obtain ⟨b, hb, rfl⟩ := mem_children_canonicalize.1 ha
          exact find_lt h.valid.shape (hlt b hb)
        rw [hmap'] at hholds
        exact I.unique hholds hd
  · exact standing_push hns hext h.stands hn hstands

/-- The head of what is left of a list is the next to come. -/
theorem getElem_of_cons_eq_drop {α : Type} {l rest : List α} {a : α} {k : Nat}
    (h : a :: rest = l.drop k) : l[k]? = some a ∧ rest = l.drop (k + 1) := by
  constructor
  · have h0 := congrArg (·[0]?) h
    simpa [List.getElem?_drop] using h0.symm
  · rw [← List.tail_drop, ← h, List.tail_cons]

/-- Nodes are added one by one: what each addition keeps holds in the end, with a class for every
node. -/
theorem addNodes_ind {ns : List (Node Nat)} {Q : Array ClassId → EGraph → Prop}
    (hchild : ∀ (i : Nat) (n : Node Nat), ns[i]? = some n → ∀ c ∈ n.children, c < i)
    (hadd : ∀ (ids : Array ClassId) n g, Q ids g → ns[ids.size]? = some n →
      ∃ id g', add (n.map fun i => ids.getD i 0) g = .ok id g' ∧ Q (ids.push id) g')
    (todo : List (Node Nat)) {ids : Array ClassId} {g : EGraph} (h : Q ids g)
    (htodo : todo = ns.drop ids.size) (hsize : ids.size ≤ ns.length) :
    ∃ ids' g', addNodes todo ids g = .ok ids' g' ∧ Q ids' g' ∧ ids'.size = ns.length := by
  induction todo generalizing ids g with
  | nil =>
    have hlen := congrArg List.length htodo
    rw [List.length_nil, List.length_drop] at hlen
    exact ⟨ids, g, rfl, h, by omega⟩
  | cons n todo ih =>
    obtain ⟨hn, hrest⟩ := getElem_of_cons_eq_drop htodo
    have hlt : ids.size < ns.length := (List.getElem?_eq_some_iff.1 hn).1
    obtain ⟨id, g', hrun, h'⟩ := hadd ids n g h hn
    rw [addNodes_cons (Node.mapM_getElem 0 (hchild _ n hn)) hrun]
    exact ih h' (by rw [Array.size_push, hrest]) (by rw [Array.size_push]; exact hlt)

theorem getElem_of_size_eq {t : Term} {ids : Array ClassId} (hsize : ids.size = t.size) {i : Nat}
    (hi : i < t.size) : ids[i]? = some (ids.getD i 0) := by
  rw [← hsize] at hi
  rw [Array.getD_eq_getD_getElem?, Array.getElem?_eq_getElem hi]
  rfl

theorem Standing.stands {t : Term} {ids : Array ClassId} (h : Standing g o t.nodes.toList ids)
    (hsize : ids.size = t.size) {i : Nat} {n : Node Nat} (hn : t.nodes[i]? = some n) :
    g.Stands o (n.map fun j => ids.getD j 0, ids.getD i 0) :=
  h i _ n (getElem_of_size_eq hsize (Array.getElem?_eq_some_iff.1 hn).1)
    (by rwa [Array.getElem?_toList])

/-- The class of a term's last node, by its position. -/
theorem addTerm_of_addNodes {t : Term} {ids : Array ClassId} (ht : t.isEmpty = false)
    (h : addNodes t.nodes.toList #[] g = .ok ids g') (hsize : ids.size = t.size) :
    addTerm t g = .ok (some (g'.find (ids.getD (t.size - 1) 0))) g' := by
  rw [addTerm_eq h, Array.back?, hsize, getElem_of_size_eq hsize (Term.size_sub_one_lt ht),
    Option.map_some]

/-- A term of known values has been added, its root in the class `id`.  Its nodes stand in classes
of their own, and all classes have values of it. -/
structure Seeded (I : Meaning D) (t : Term) (value : Nat → D) (id : ClassId) (g : EGraph)
    (o : Origin D) : Prop where
  valid : Valid I g o
  lt : id < g.size
  value_root : o.value id = value (t.size - 1)
  confined : ∀ V : D → Prop, (∀ i, i < t.size → V (value i)) → g.Confined V o
  origin : ∀ i, i < g.size → IsConstant (o.node i) ∨
    ∃ k n, t.nodes[k]? = some n ∧ (o.node i).outline = n.outline ∧ o.value i = value k
  stands : ∃ cls : Nat → ClassId, cls (t.size - 1) = id ∧
    ∀ (i : Nat) (n : Node Nat), t.nodes[i]? = some n → g.Stands o (n.map cls, cls i)

/-- **Adding a term** whose nodes have values gives a class of the root's value. -/
theorem addTerm_spec {t : Term} {value : Nat → D} (hvalue : t.Valued I value)
    (ht : t.isEmpty = false) (o : Origin D) :
    ∃ id g' o', addTerm t (.empty I.analysis) = .ok (some id) g' ∧ Seeded I t value id g' o' := by
  have hempty : Seeding I t.nodes.toList value #[] (.empty I.analysis) o :=
    ⟨valid_empty I o, fun i c hc => by simp at hc, fun V _ i hi => absurd hi (Nat.not_lt_zero i),
      fun i hi => absurd hi (Nat.not_lt_zero i), fun i c n hc => by simp at hc⟩
  obtain ⟨ids, g', hrun, ⟨o', hseeded⟩, hsize⟩ :=
    addNodes_ind (Q := fun ids g => ∃ o, Seeding I t.nodes.toList value ids g o)
      Term.lt_of_mem_children_toList
      (fun ids n g h hn => by
        obtain ⟨o, h⟩ := h
        obtain ⟨id, g', o', hrun, h'⟩ := seeded_add h Term.lt_of_mem_children_toList hn
          (hvalue _ n (by rwa [Array.getElem?_toList] at hn))
        exact ⟨id, g', hrun, o', h'⟩)
      t.nodes.toList ⟨o, hempty⟩ rfl (Nat.zero_le _)
  have hsize' : ids.size = t.size := hsize.trans Array.length_toList
  obtain ⟨hlt, hlastvalue⟩ := hseeded.lt _ _ (getElem_of_size_eq hsize' (Term.size_sub_one_lt ht))
  refine ⟨g'.find (ids.getD (t.size - 1) 0), g', o', addTerm_of_addNodes ht hrun hsize',
    hseeded.valid, find_lt hseeded.valid.shape hlt, ?_, fun V hV => ?_, ?_,
    fun i => g'.find (ids.getD i 0), rfl, ?_⟩
  · rw [hseeded.valid.sound.value_find _ hlt, hlastvalue]
  · exact hseeded.confined V fun i hi => hV i (by rwa [Array.length_toList] at hi)
  · intro i hi
    refine (hseeded.origin i hi).imp_right ?_
    rintro ⟨k, n, hn, hrest⟩
    exact ⟨k, n, by rwa [Array.getElem?_toList] at hn, hrest⟩
  · intro i n hn
    have hstanding : Standing g' o' t.nodes.toList ids := hseeded.stands
    refine (hstanding.stands hsize' hn).of_same ⟨?_, find_find hseeded.valid.shape _⟩
    have hmap : n.map (fun i => g'.find (ids.getD i 0)) =
        g'.canonicalize (n.map fun i => ids.getD i 0) := by
      rw [canonicalize, Node.map_map]
      rfl
    rw [hmap, canonicalize_canonicalize hseeded.valid.shape]

/-! ## Rounds -/

variable {stop : Option Conflict}

/-- What the start of a run needs: the rules keep `P`, and the start is in order with it. -/
structure Sets (I : Meaning D) (rules : List Rule) (P : EGraph → Origin D → Prop) (start : EGraph)
    (o₀ : Origin D) : Prop where
  keeps : Keeps I rules P
  valid : Valid I start o₀
  holds : P start o₀

theorem Sets.upheld (h : Sets I rules P start o₀) (hist : History rules start graphs stop)
    (hg : graphs.head? = some g) : ∃ o, Upheld I P start o₀ g graphs.tail stop o := by
  obtain ⟨g', past, o, rfl, hu⟩ := hist.upheld h.keeps h.valid h.holds
  cases hg
  exact ⟨o, hu⟩

theorem follows_rebuild (h : Sets I rules P start o₀) (hist : History rules start graphs none)
    (hg : graphs.head? = some g) :
    Follows rules start graphs (rebuild g) ∧ ∀ n g', rebuild g = .ok n g' → Tidy g' := by
  obtain ⟨o, hu⟩ := h.upheld hist hg
  obtain ⟨hvalid, -⟩ := hu.running rfl
  constructor
  · rw [rebuild_eq]
    refine follows_bind (follows_drain _ _ _ hist hg) ?_
    intro unions g' graphs' hrun hsuffix hhead hist'
    obtain ⟨hp, hf⟩ := (drain_spec (fun _ => False) g.work .congruence 0 hvalid
      (Nat.le_refl _)).2 unions g' hrun
    rw [eq_cons_of_head? hhead] at hist' ⊢
    exact ⟨_, List.suffix_cons _ _, rfl, hist'.tidy hp hf⟩
  · intro n g' hrun
    obtain ⟨o', -, htidy, -⟩ := rebuild_ok hvalid (fun _ => False) hrun
    exact htidy

theorem saturateOnce_eq (rules : List Rule) (nodeLimit index : Nat) (g : EGraph) :
    saturateOnce rules nodeLimit index g =
      (applyFound nodeLimit (rules.map fun r => (r, r.search g)) [] >>= fun applied =>
        rebuild >>= fun rebuildUnions => do
          let g' ← get
          return {
            index := index
            found := tallyFound (rules.map fun r => (r, r.search g))
            applied := applied
            rebuildUnions := rebuildUnions
            nodes := g'.numNodes
            classes := g'.numClasses
            saturated := g'.unionCount == g.unionCount && g'.numNodes == g.numNodes &&
              g'.numClasses == g.numClasses }) g := rfl

/-- A round that succeeds has applied the rules to what was found, and rebuilt. -/
theorem saturateOnce_ok {nodeLimit index : Nat} {it : Iteration}
    (h : saturateOnce rules nodeLimit index g = .ok it g') :
    ∃ applied g₁ unions,
      applyFound nodeLimit (rules.map fun r => (r, r.search g)) [] g = .ok applied g₁ ∧
      rebuild g₁ = .ok unions g' ∧ (it.saturated = true ↔ g'.unionCount = g.unionCount ∧
        g'.numNodes = g.numNodes ∧ g'.numClasses = g.numClasses) := by
  rw [saturateOnce_eq] at h
  obtain ⟨applied, g₁, happ, h⟩ := bind_eq_ok h
  obtain ⟨unions, g₂, hreb, h⟩ := bind_eq_ok h
  cases h
  exact ⟨applied, g₁, unions, happ, hreb, by simp [and_assoc]⟩

theorem follows_saturateOnce (h : Sets I rules P start o₀)
    (hist : History rules start graphs none) (hg : graphs.head? = some g) (nodeLimit index : Nat) :
    Follows rules start graphs (saturateOnce rules nodeLimit index g) ∧
      ∀ it g', saturateOnce rules nodeLimit index g = .ok it g' → Tidy g' := by
  have hfound : FoundIn rules graphs (rules.map fun r => (r, r.search g)) := by
    intro f hf
    obtain ⟨r, hr, rfl⟩ := List.mem_map.1 hf
    refine ⟨hr, fun m hm => ⟨g, ?_, hm⟩⟩
    rw [eq_cons_of_head? hg]
    exact List.mem_cons_self
  have happlied := follows_applyFound nodeLimit _ [] hist hg hfound
  constructor
  · rw [saturateOnce_eq]
    refine follows_bind happlied ?_
    intro applied g₁ graphs₁ _ _ hhead₁ hist₁
    refine follows_bind (follows_rebuild h hist₁ hhead₁).1 ?_
    intro unions g₂ graphs₂ _ _ hhead₂ hist₂
    exact follows_pure _ hist₂ hhead₂
  · intro it g' hok
    obtain ⟨applied, g₁, unions, happ, hreb, -⟩ := saturateOnce_ok hok
    obtain ⟨graphs₁, -, hhead₁, hist₁⟩ := happlied
    rw [happ] at hhead₁ hist₁
    exact (follows_rebuild h hist₁ hhead₁).2 unions g' hreb

/-! ## Runners -/

namespace Runner

/-- A step of a runner as one of its graph. -/
def graphOf {α : Type} : EStateM.Result Conflict Runner α → EStateM.Result Conflict EGraph α
  | .ok a r => .ok a r.egraph
  | .error e r => .error e r.egraph

/-- A step takes the history of a runner's graph further, and keeps the runner's rules and
limits; where it succeeds, the graph is tidy. -/
structure Proceeds {α : Type} (start : EGraph) (graphs : List EGraph) (r : Runner)
    (res : EStateM.Result Conflict Runner α) : Prop where
  follows : Follows r.rules start graphs (graphOf res)
  tidy : ∀ a r', res = .ok a r' → Tidy r'.egraph

theorem onGraph_ok {α : Type} {f : Update α} {r : Runner} {a : α} {g : EGraph}
    (h : f r.egraph = .ok a g) : onGraph f r = .ok a { r with egraph := g } := by
  unfold onGraph
  dsimp only
  rw [h]

theorem onGraph_error {α : Type} {f : Update α} {r : Runner} {e : Conflict} {g : EGraph}
    (h : f r.egraph = .error e g) : onGraph f r = .error e { r with egraph := g } := by
  unfold onGraph
  dsimp only
  rw [h]

theorem runWithin_succ (rest : Nat) (r : Runner) : runWithin (rest + 1) r =
    if r.egraph.numNodes > r.limits.nodes then .ok .nodeLimit r
    else match saturateOnce r.rules r.limits.nodes r.report.iterations.size r.egraph with
      | .ok it g =>
        let r' := { r with
          egraph := g
          report := { r.report with iterations := r.report.iterations.push it } }
        if it.saturated then .ok .saturated r' else runWithin rest r'
      | .error e g => .error e { r with egraph := g } := by
  show (if r.egraph.numNodes > r.limits.nodes then return .nodeLimit
    else onGraph (saturateOnce r.rules r.limits.nodes r.report.iterations.size) >>= fun it => do
      modify fun r => { r with
        report := { r.report with iterations := r.report.iterations.push it } }
      if it.saturated then return .saturated
      runWithin rest : RunM StopReason) r = _
  split
  · rfl
  · cases hsat : saturateOnce r.rules r.limits.nodes r.report.iterations.size r.egraph with
    | ok it g =>
      rw [bind_ok (onGraph_ok hsat)]
      show (if it.saturated then return .saturated else runWithin rest : RunM StopReason) _ = _
      dsimp only
      split <;> rfl
    | error e g => rw [bind_error (onGraph_error hsat)]

theorem proceeds_runWithin (n : Nat) {r : Runner} (h : Sets I r.rules P start o₀)
    {graphs : List EGraph} (hist : History r.rules start graphs none)
    (hg : graphs.head? = some r.egraph) (ht : Tidy r.egraph) :
    Proceeds start graphs r (runWithin n r) := by
  induction n generalizing r graphs with
  | zero =>
    refine ⟨follows_pure _ hist hg, fun a r' hrun => ?_⟩
    cases hrun
    exact ht
  | succ n ih =>
    rw [runWithin_succ]
    split
    · refine ⟨follows_pure _ hist hg, fun a r' hrun => ?_⟩
      cases hrun
      exact ht
    · obtain ⟨hfollows, htidy⟩ := follows_saturateOnce h hist hg r.limits.nodes
        r.report.iterations.size
      obtain ⟨graphs₁, hsuffix, hhead₁, hist₁⟩ := hfollows
      cases hsat : saturateOnce r.rules r.limits.nodes r.report.iterations.size r.egraph with
      | ok it g =>
        rw [hsat] at hhead₁ hist₁
        have htidy₁ := htidy it g hsat
        dsimp only
        split
        · refine ⟨⟨graphs₁, hsuffix, hhead₁, hist₁⟩, fun a r' hrun => ?_⟩
          cases hrun
          exact htidy₁
        · obtain ⟨⟨graphs₂, hsuffix₂, hhead₂, hist₂⟩, htidy₂⟩ := ih (r := { r with
            egraph := g
            report := { r.report with iterations := r.report.iterations.push it } })
            h hist₁ hhead₁ htidy₁
          exact ⟨⟨graphs₂, hsuffix.trans hsuffix₂, hhead₂, hist₂⟩, htidy₂⟩
      | error e g =>
        rw [hsat] at hhead₁ hist₁
        exact ⟨⟨graphs₁, hsuffix, hhead₁, hist₁⟩, fun a r' hrun => by cases hrun⟩

theorem run_eq (r : Runner) : run r =
    (runWithin (r.limits.iterations - r.report.iterations.size) >>= fun reason => do
      modify fun r => { r with report := { r.report with stopReason := some reason } }
      return reason) r := rfl

theorem proceeds_run {r : Runner} (h : Sets I r.rules P start o₀)
    (hist : History r.rules start graphs none) (hg : graphs.head? = some r.egraph)
    (ht : Tidy r.egraph) : Proceeds start graphs r (run r) := by
  obtain ⟨hfollows, htidy⟩ := proceeds_runWithin
    (r.limits.iterations - r.report.iterations.size) h hist hg ht
  rw [run_eq]
  cases hrun : runWithin (r.limits.iterations - r.report.iterations.size) r with
  | ok reason r' =>
    rw [hrun] at hfollows
    rw [bind_ok hrun]
    refine ⟨hfollows, fun a r'' hr'' => ?_⟩
    cases hr''
    exact htidy reason r' hrun
  | error e r' =>
    rw [hrun] at hfollows
    rw [bind_error hrun]
    exact ⟨hfollows, fun a r'' hr'' => by cases hr''⟩

theorem seed_ok {t : Term} {r : Runner} {id : ClassId} {g g' : EGraph} {n : Nat}
    (h : addTerm t r.egraph = .ok (some id) g) (hr : rebuild g = .ok n g') :
    seed t r = .ok (some id) { r with egraph := g', roots := r.roots.push id } := by
  have hseed : seed t r = (onGraph rebuild >>= fun _ => return some id)
      { r with egraph := g, roots := r.roots.push id } := bind_ok (onGraph_ok h)
  rw [hseed, bind_ok (onGraph_ok hr)]
  rfl

theorem seed_error {t : Term} {r : Runner} {id : ClassId} {g g' : EGraph} {e : Conflict}
    (h : addTerm t r.egraph = .ok (some id) g) (hr : rebuild g = .error e g') :
    seed t r = .error e { r with egraph := g', roots := r.roots.push id } := by
  have hseed : seed t r = (onGraph rebuild >>= fun _ => return some id)
      { r with egraph := g, roots := r.roots.push id } := bind_ok (onGraph_ok h)
  rw [hseed, bind_error (onGraph_error hr)]

end Runner

/-- How a saturation ends: in a tidy graph, or with the conflict that has ended the history. -/
inductive Saturated (stop : Option Conflict) (id : ClassId) :
    Except SimplifyError ClassId × Runner → Prop where
  | done {r : Runner} (hs : stop = none) (ht : Tidy r.egraph) :
    Saturated stop id (.ok (r.egraph.find id), r)
  | failed {e : Conflict} {r : Runner} (hs : stop = some e) :
    Saturated stop id (.error (.conflict e), r)

/-- A term that has been seeded is saturated by a run. -/
theorem saturate_of_seed {t : Term} {id : ClassId} {r : Runner} {limits : Limits}
    (h : Runner.seed t (.make rules limits .constantFolding) = .ok (some id) r) :
    saturate rules limits t = match Runner.run r with
      | .ok _ r' => (.ok (r'.egraph.find id), r')
      | .error e r' => (.error (.conflict e), r') := by
  have hsat : Runner.saturate t (.make rules limits .constantFolding) =
      (Runner.run >>= fun _ => do return some ((← get).egraph.find id)) r := bind_ok h
  unfold saturate
  rw [hsat]
  cases hrun : Runner.run r with
  | ok reason r' =>
    rw [bind_ok hrun]
    rfl
  | error e r' => rw [bind_error hrun]

/-- A term that cannot be seeded cannot be saturated. -/
theorem saturate_of_seed_error {t : Term} {e : Conflict} {r : Runner} {limits : Limits}
    (h : Runner.seed t (.make rules limits .constantFolding) = .error e r) :
    saturate rules limits t = (.error (.conflict e), r) := by
  have hsat : Runner.saturate t (.make rules limits .constantFolding) = .error e r := bind_error h
  unfold saturate
  rw [hsat]

/-- A term that has been added and rebuilt is saturated by a run. -/
theorem saturate_eq {t : Term} {id : ClassId} {n : Nat}
    (hadd : addTerm t (.empty .constantFolding) = .ok (some id) g) (hreb : rebuild g = .ok n g')
    (limits : Limits) :
    saturate rules limits t = match Runner.run { Runner.make rules limits .constantFolding with
        egraph := g', roots := #[id] } with
      | .ok _ r => (.ok (r.egraph.find id), r)
      | .error e r => (.error (.conflict e), r) := by
  have hadd' : addTerm t (Runner.make rules limits .constantFolding).egraph =
      .ok (some id) g := hadd
  exact saturate_of_seed (Runner.seed_ok hadd' hreb)

/-- From the rebuilt graph on, a saturation takes a history further. -/
theorem saturate_of_history (h : Sets I rules P start o₀) {t : Term} {id : ClassId} {n : Nat}
    (hadd : addTerm t (.empty .constantFolding) = .ok (some id) g) (hreb : rebuild g = .ok n g')
    (hist : History rules start graphs none) (hg : graphs.head? = some g') (ht : Tidy g')
    (limits : Limits) :
    ∃ graphs stop, History rules start graphs stop ∧
      graphs.head? = some (saturate rules limits t).2.egraph ∧
      Saturated stop id (saturate rules limits t) := by
  obtain ⟨⟨graphs', -, hhead, hist'⟩, htidy⟩ := Runner.proceeds_run (r := { Runner.make rules limits
    .constantFolding with egraph := g', roots := #[id] }) h hist hg ht
  rw [saturate_eq hadd hreb limits]
  cases hrun : Runner.run { Runner.make rules limits .constantFolding with
    egraph := g', roots := #[id] } with
  | ok reason r =>
    rw [hrun] at hhead hist'
    exact ⟨graphs', _, hist', hhead, .done rfl (htidy reason r hrun)⟩
  | error e r =>
    rw [hrun] at hhead hist'
    exact ⟨graphs', _, hist', hhead, .failed rfl⟩

/-- **The graphs of a saturation** are a history, from the graph on that holds the term. -/
theorem saturate_spec (h : Sets I rules P start o₀) {t : Term} {id : ClassId}
    (hadd : addTerm t (.empty .constantFolding) = .ok (some id) start) (limits : Limits) :
    ∃ graphs stop, History rules start graphs stop ∧
      graphs.head? = some (saturate rules limits t).2.egraph ∧
      Saturated stop id (saturate rules limits t) := by
  obtain ⟨⟨graphs₁, -, hhead₁, hist₁⟩, htidy₁⟩ := follows_rebuild h .start (g := start) rfl
  cases hreb : rebuild start with
  | error e g₁ =>
    rw [hreb] at hhead₁ hist₁
    have hadd' : addTerm t (Runner.make rules limits .constantFolding).egraph =
        .ok (some id) start := hadd
    rw [saturate_of_seed_error (Runner.seed_error hadd' hreb)]
    exact ⟨graphs₁, _, hist₁, hhead₁, .failed rfl⟩
  | ok n g₁ =>
    rw [hreb] at hhead₁ hist₁
    exact saturate_of_history h hadd hreb hist₁ hhead₁ (htidy₁ n g₁ hreb) limits

end EqSat
