import EqSat.Proofs.EGraph.Rebuild
import EqSat.Proofs.Terms
import Mathlib.Data.Quot

/-!
# What a script of calls makes equal

A script is a list of calls on an empty graph, which refer to classes by the number of the
call that added them.  Its closure is the least congruence on the added nodes that contains
the unions and, with constant folding, equates a node with the constant it folds to.

After a rebuild the graph has decided the closure: it finds two nodes equal exactly when the
closure relates them, and knows the constant of a class exactly when the closure relates the
class with it.  A script whose closure relates two constants ends in a conflict, and no other
script does.

    closure_of_find_eq         nothing is equal that the closure does not relate
    find_eq_of_closure         all that the closure relates is equal after a rebuild
    decides_closure            both, for every script of calls, with the conflicts
-/

namespace EqSat

/-! ## Scripts -/

/-- A call on a graph.  The ids given back by additions are known by their numbers. -/
inductive Call where
  | add (n : Node Nat)
  | union (i j : Nat)
  | rebuild
deriving DecidableEq, Repr

namespace Call

/-- The numbers of the additions that the call refers to. -/
def references : Call → List Nat
  | add n => n.children
  | union i j => [i, j]
  | rebuild => []

def node? : Call → Option (Node Nat)
  | add n => some n
  | _ => none

/-- Make the call, `ids` being what the additions so far have given back. -/
def run (ids : Array ClassId) : Call → Update (Array ClassId)
  | add n => do
    let id ← EGraph.add (n.map fun i => ids.getD i 0)
    return ids.push id
  | union i j => do
    let _ ← EGraph.union (ids.getD i 0) (ids.getD j 0)
    return ids
  | rebuild => do
    let _ ← EGraph.rebuild
    return ids

end Call

/-- Make the calls one after the other. -/
def runCalls : List Call → Array ClassId → Update (Array ClassId)
  | [], ids => return ids
  | c :: cs, ids => do
    let ids ← c.run ids
    runCalls cs ids

/-- The nodes that the calls add, in order. -/
def addedNodes (calls : List Call) : List (Node Nat) := calls.filterMap Call.node?

theorem addedNodes_append (calls more : List Call) :
    addedNodes (calls ++ more) = addedNodes calls ++ addedNodes more :=
  List.filterMap_append

theorem mem_addedNodes {calls : List Call} {n : Node Nat} (h : n ∈ addedNodes calls) :
    .add n ∈ calls := by
  obtain ⟨c, hc, hn⟩ := List.mem_filterMap.1 h
  cases c <;> simp only [Call.node?, reduceCtorEq, Option.some.injEq] at hn
  rwa [hn] at hc

/-- After `count` additions, every call refers to additions before it. -/
def Closed : Nat → List Call → Prop
  | _, [] => True
  | count, c :: cs =>
    (∀ i ∈ c.references, i < count) ∧ Closed (count + (addedNodes [c]).length) cs

instance decidableClosed : (count : Nat) → (calls : List Call) → Decidable (Closed count calls)
  | _, [] => inferInstanceAs (Decidable True)
  | count, c :: cs =>
    have := decidableClosed (count + (addedNodes [c]).length) cs
    inferInstanceAs (Decidable ((∀ i ∈ c.references, i < count) ∧
      Closed (count + (addedNodes [c]).length) cs))

/-! ## The closure -/

/-- A node that was added, or the leaf of a constant. -/
inductive Point where
  | added (i : Nat)
  | const (c : Constant)
deriving DecidableEq

def Point.node? (nodes : List (Node Nat)) : Point → Option (Node Nat)
  | added i => nodes[i]?
  | const c => some (.leaf (.const c))

/-- The least congruence that contains the unions, and with constant folding equates a node
over constants with the constant it folds to. -/
inductive Closure (analysis : Analysis) (calls : List Call) : Point → Point → Prop where
  | refl (p) : Closure analysis calls p p
  | symm {p q} (h : Closure analysis calls p q) : Closure analysis calls q p
  | trans {p q r} (h : Closure analysis calls p q) (h' : Closure analysis calls q r) :
    Closure analysis calls p r
  | union {i j} (h : .union i j ∈ calls) : Closure analysis calls (.added i) (.added j)
  | congr {p q m n} (hp : p.node? (addedNodes calls) = some m)
    (hq : q.node? (addedNodes calls) = some n) (hmn : m.outline = n.outline)
    (h : ∀ c ∈ m.children.zip n.children, Closure analysis calls (.added c.1) (.added c.2)) :
    Closure analysis calls p q
  | fold {p n} {m : Node Constant} {k} (ha : analysis = .constantFolding)
    (hp : p.node? (addedNodes calls) = some n) (hnm : n.outline = m.outline)
    (h : ∀ c ∈ n.children.zip m.children, Closure analysis calls (.added c.1) (.const c.2))
    (hk : (m.map some).fold? = some k) : Closure analysis calls p (.const k)

/-- No two constants are made equal. -/
def Consistent (analysis : Analysis) (calls : List Call) : Prop :=
  ∀ c d, Closure analysis calls (.const c) (.const d) → c = d

/-! ## The closure as a meaning of nodes -/

variable {analysis : Analysis} {all done rest : List Call} {ids : Array ClassId} {g : EGraph}

/-- Points up to the closure. -/
def closureSetoid (analysis : Analysis) (calls : List Call) : Setoid Point where
  r := Closure analysis calls
  iseqv := ⟨.refl, .symm, .trans⟩

/-- What a node means is the points that it is related with. -/
def closureMeaning (analysis : Analysis) (calls : List Call) :
    Meaning (Quotient (closureSetoid analysis calls)) where
  analysis := analysis
  const c := Quotient.mk _ (.const c)
  Holds n d := ∃ p m, p.node? (addedNodes calls) = some m ∧
    n = m.map (fun i => Quotient.mk _ (.added i)) ∧ d = Quotient.mk _ p
  holds_const := fun c => ⟨.const c, _, rfl, rfl, rfl⟩
  unique := by
    rintro n _ _ ⟨p, m, hm, rfl, rfl⟩ ⟨q, m', hm', hmm', rfl⟩
    obtain ⟨hout, hchild⟩ := Node.map_eq_map_iff.1 hmm'
    exact Quotient.sound (Closure.congr hm hm' hout fun c hc => Quotient.exact (hchild c hc))
  fold := by
    rintro ha n k _ hk ⟨p, m, hm, hnm, rfl⟩
    obtain ⟨hout, hchild⟩ := Node.map_eq_map_iff.1 hnm.symm
    exact Quotient.sound (Closure.fold ha hm hout (fun c hc => Quotient.exact (hchild c hc)) hk)

/-! ## A run of a script -/

/-- Where a run of the calls `done` stands. -/
structure Ran (analysis : Analysis) (all done : List Call) (ids : Array ClassId) (g : EGraph)
    (o : Origin (Quotient (closureSetoid analysis all))) : Prop where
  valid : EGraph.Valid (closureMeaning analysis all) g o
  size : ids.size = (addedNodes done).length
  refers : ∀ c ∈ done, ∀ i ∈ c.references, i < ids.size
  lt : ∀ i, i < ids.size → ids.getD i 0 < g.size
  value : ∀ i, i < ids.size → o.value (ids.getD i 0) = Quotient.mk _ (.added i)
  stands : ∀ i n, (addedNodes done)[i]? = some n →
    g.Stands o (n.map fun j => ids.getD j 0, ids.getD i 0)
  united : ∀ i j, .union i j ∈ done → g.find (ids.getD i 0) = g.find (ids.getD j 0)
  covered : ∀ id, id < g.size → ∃ i, i < ids.size ∧ g.find id = g.find (ids.getD i 0)

/-- The end of a run: all calls were made, or constants that the closure relates conflict. -/
def RanOrClash (analysis : Analysis) (all done : List Call) :
    EStateM.Result Conflict EGraph (Array ClassId) → Prop
  | .ok ids g => ∃ o, Ran analysis all done ids g o
  | .error e _ => EGraph.Clash (closureMeaning analysis all) e

variable {o o' : Origin (Quotient (closureSetoid analysis all))} {g' : EGraph}

theorem ran_empty (analysis : Analysis) (all : List Call)
    (o : Origin (Quotient (closureSetoid analysis all))) :
    Ran analysis all [] #[] (.empty analysis) o where
  valid := EGraph.valid_empty (closureMeaning analysis all) o
  size := rfl
  refers := fun c hc => by cases hc
  lt := fun i hi => absurd hi (Nat.not_lt_zero i)
  value := fun i hi => absurd hi (Nat.not_lt_zero i)
  stands := fun i n hn => by cases hn
  united := fun i j h => by cases h
  covered := fun id hid => absurd hid (Nat.not_lt_zero id)

/-- A call that adds nothing makes the run go on in the later graph. -/
theorem ran_extends {c : Call} {new : ENode → Prop} (h : Ran analysis all done ids g o)
    (hvalid : EGraph.Valid (closureMeaning analysis all) g' o')
    (hext : EGraph.Extends new g o g' o') (hnew : ∀ n, ¬new n) (hc : addedNodes [c] = [])
    (hrefers : ∀ i ∈ c.references, i < ids.size)
    (hunion : ∀ i j, c = .union i j → g'.find (ids.getD i 0) = g'.find (ids.getD j 0)) :
    Ran analysis all (done ++ [c]) ids g' o' := by
  have hadded : addedNodes (done ++ [c]) = addedNodes done := by
    rw [addedNodes_append, hc, List.append_nil]
  refine ⟨hvalid, by rw [hadded, h.size], ?_, ?_, ?_, ?_, ?_, ?_⟩
  · intro c' hc'
    rcases List.mem_append.1 hc' with hc' | hc'
    · exact h.refers c' hc'
    · rw [List.mem_singleton.1 hc']
      exact hrefers
  · exact fun i hi => Nat.lt_of_lt_of_le (h.lt i hi) hext.size_le
  · intro i hi
    rw [hext.value _ (h.lt i hi), h.value i hi]
  · intro i n hn
    rw [hadded] at hn
    exact hext.stands (h.stands i n hn)
  · intro i j hij
    rcases List.mem_append.1 hij with hij | hij
    · exact hext.find _ _ (h.united i j hij)
    · exact hunion i j (List.mem_singleton.1 hij).symm
  · intro id hid
    obtain ⟨j, hj, hf⟩ := hext.near hnew id hid
    obtain ⟨i, hi, hji⟩ := h.covered j hj
    exact ⟨i, hi, hf.trans (hext.find _ _ hji)⟩

/-- The next node added is a node of the script. -/
theorem node_added {n : Node Nat} (hall : all = done ++ .add n :: rest) :
    (Point.added (addedNodes done).length).node? (addedNodes all) = some n := by
  rw [hall, addedNodes_append]
  show (addedNodes done ++ n :: addedNodes rest)[(addedNodes done).length]? = some n
  rw [List.getElem?_append_right (Nat.le_refl _), Nat.sub_self]
  rfl

/-- An index of a script with one more node is an older one or that of the node. -/
theorem lt_or_eq_of_lt_size_push {i : Nat} {id : ClassId} (hi : i < (ids.push id).size) :
    i < ids.size ∨ i = ids.size := by
  rw [Array.size_push] at hi
  exact Nat.lt_succ_iff_lt_or_eq.1 hi

/-- A node that was added makes the run go on with one more id. -/
theorem ran_of_added {n : Node Nat} {id : ClassId} (h : Ran analysis all done ids g o)
    (hn : ∀ i ∈ n.children, i < ids.size)
    (ha : EGraph.Added (closureMeaning analysis all) g o (n.map fun i => ids.getD i 0)
      (Quotient.mk _ (.added ids.size)) id g' o') :
    Ran analysis all (done ++ [.add n]) (ids.push id) g' o' where
  valid := ha.valid
  size := by
    rw [addedNodes_append, Array.size_push, List.length_append, h.size]
    rfl
  refers := by
    intro c hc i hi
    rw [Array.size_push]
    rcases List.mem_append.1 hc with hc | hc
    · exact Nat.lt_succ_of_lt (h.refers c hc i hi)
    · rw [List.mem_singleton.1 hc] at hi
      exact Nat.lt_succ_of_lt (hn i hi)
  lt := by
    intro i hi
    rcases lt_or_eq_of_lt_size_push hi with hi | rfl
    · rw [getD_push_of_lt hi]
      exact Nat.lt_of_lt_of_le (h.lt i hi) ha.extended.size_le
    · rw [getD_push_size]
      exact ha.lt
  value := by
    intro i hi
    rcases lt_or_eq_of_lt_size_push hi with hi | rfl
    · rw [getD_push_of_lt hi, ha.extended.value _ (h.lt i hi), h.value i hi]
    · rw [getD_push_size, ha.value]
  stands := by
    intro i m hm
    rw [addedNodes_append, List.getElem?_append] at hm
    split at hm
    · next hi =>
      have hadd := mem_addedNodes (List.mem_of_getElem? hm)
      rw [map_getD_push (h.refers _ hadd), getD_push_of_lt (by rw [h.size]; exact hi)]
      exact ha.extended.stands (h.stands i m hm)
    · next hi =>
      have hm : [n][i - (addedNodes done).length]? = some m := hm
      obtain ⟨hi0, rfl⟩ : i - (addedNodes done).length = 0 ∧ n = m := by
        simpa [List.getElem?_singleton] using hm
      obtain rfl : i = ids.size := by
        rw [h.size]
        omega
      rw [map_getD_push hn, getD_push_size]
      exact ha.stands
  united := by
    intro i j hij
    rcases List.mem_append.1 hij with hij | hij
    · have hrefs := h.refers _ hij
      rw [getD_push_of_lt (hrefs i (by simp [Call.references])),
        getD_push_of_lt (hrefs j (by simp [Call.references]))]
      exact ha.extended.find _ _ (h.united i j hij)
    · cases List.mem_singleton.1 hij
  covered := by
    intro i hi
    rw [Array.size_push]
    obtain ⟨j, hj, hij⟩ := ha.near i hi
    rcases hj with hj | rfl
    · obtain ⟨l, hl, hjl⟩ := h.covered j hj
      refine ⟨l, Nat.lt_succ_of_lt hl, ?_⟩
      rw [getD_push_of_lt hl, hij]
      exact ha.extended.find _ _ hjl
    · exact ⟨ids.size, Nat.lt_succ_self _, by rw [getD_push_size, hij]⟩

theorem ran_add {n : Node Nat} (h : Ran analysis all done ids g o)
    (hall : all = done ++ .add n :: rest) (hn : ∀ i ∈ n.children, i < ids.size) :
    ∃ ids' g' o', (Call.add n).run ids g = .ok ids' g' ∧
      Ran analysis all (done ++ [.add n]) ids' g' o' := by
  have hpoint := node_added hall
  rw [← h.size] at hpoint
  have hchild : ∀ a ∈ (n.map fun i => ids.getD i 0).children, a < g.size :=
    Node.forall_mem_children_map.2 fun i hi => h.lt i (hn i hi)
  have hholds : (closureMeaning analysis all).Holds ((n.map fun i => ids.getD i 0).map o.value)
      (Quotient.mk _ (.added ids.size)) := by
    refine ⟨.added ids.size, n, hpoint, ?_, rfl⟩
    rw [Node.map_map]
    exact Node.map_congr fun i hi => h.value i (hn i hi)
  obtain ⟨id, g', o', hrun, ha⟩ := EGraph.add_spec h.valid hchild hholds
  exact ⟨ids.push id, g', o', EGraph.bind_ok hrun, ran_of_added h hn ha⟩

theorem ran_union {i j : Nat} (h : Ran analysis all done ids g o)
    (hall : all = done ++ .union i j :: rest) (hi : i < ids.size) (hj : j < ids.size) :
    RanOrClash analysis all (done ++ [.union i j]) ((Call.union i j).run ids g) := by
  have hvalue : o.value (ids.getD i 0) = o.value (ids.getD j 0) := by
    rw [h.value i hi, h.value j hj]
    refine Quotient.sound (Closure.union ?_)
    rw [hall]
    exact List.mem_append_right _ List.mem_cons_self
  have hrun : (Call.union i j).run ids g =
      (EGraph.union (ids.getD i 0) (ids.getD j 0) >>= fun _ => return ids) g := rfl
  rw [hrun]
  rcases EGraph.union_spec h.valid.toCore h.valid.settled (h.valid.known.upTo _ _) (h.lt i hi)
    (h.lt j hj) hvalue with ⟨g', o', hok, hu⟩ | ⟨e, herror, hclash⟩
  · rw [EGraph.bind_ok hok]
    refine ⟨o', ran_extends h hu.valid (hu.extended fun _ => False) (fun _ hf => hf) rfl ?_ ?_⟩
    · simp [Call.references, hi, hj]
    · intro i' j' heq
      cases heq
      exact hu.find_eq
  · rw [EGraph.bind_error herror]
    exact hclash

theorem ran_rebuild (h : Ran analysis all done ids g o) :
    (∃ g' o', Call.rebuild.run ids g = .ok ids g' ∧
      Ran analysis all (done ++ [.rebuild]) ids g' o' ∧
      EGraph.Tidy g') ∨
    ∃ e g', Call.rebuild.run ids g = .error e g' ∧
      EGraph.Clash (closureMeaning analysis all) e := by
  have hrun : Call.rebuild.run ids g = (EGraph.rebuild >>= fun _ => return ids) g := rfl
  rw [hrun]
  rcases EGraph.rebuild_spec h.valid (fun _ => False) with
    ⟨n, g', o', hok, hvalid, htidy, hext⟩ | ⟨e, g', o', herror, -, -, hclash⟩
  · refine Or.inl ⟨g', o', EGraph.bind_ok hok, ran_extends h hvalid hext
      (fun _ hf => hf) rfl ?_ ?_, htidy⟩
    · simp [Call.references]
    · intro i' j' heq
      cases heq
  · exact Or.inr ⟨e, g', EGraph.bind_error herror, hclash⟩

/-- Each call takes a run further. -/
theorem ran_call {c : Call} (h : Ran analysis all done ids g o) (hall : all = done ++ c :: rest)
    (hc : ∀ i ∈ c.references, i < ids.size) :
    RanOrClash analysis all (done ++ [c]) (c.run ids g) := by
  cases c with
  | add n =>
    obtain ⟨ids', g', o', hrun, h'⟩ := ran_add h hall hc
    rw [hrun]
    exact ⟨o', h'⟩
  | union i j =>
    exact ran_union h hall (hc i (by simp [Call.references])) (hc j (by simp [Call.references]))
  | rebuild =>
    rcases ran_rebuild h with ⟨g', o', hrun, h', -⟩ | ⟨e, g', hrun, hclash⟩
    · rw [hrun]
      exact ⟨o', h'⟩
    · rw [hrun]
      exact hclash

/-- Each call in turn takes a run further, up to a conflict. -/
theorem ran_runCalls (calls : List Call) (h : Ran analysis all done ids g o)
    (hall : all = done ++ (calls ++ rest)) (hc : Closed ids.size calls) :
    RanOrClash analysis all (done ++ calls) (runCalls calls ids g) := by
  induction calls generalizing done ids g o with
  | nil =>
    rw [List.append_nil]
    exact ⟨o, h⟩
  | cons c cs ih =>
    have hrun : runCalls (c :: cs) ids g = (c.run ids >>= fun ids => runCalls cs ids) g := rfl
    have hstep := ran_call h hall hc.1
    rw [hrun]
    cases hr : c.run ids g with
    | ok ids' g' =>
      rw [hr] at hstep
      obtain ⟨o', h'⟩ := hstep
      rw [EGraph.bind_ok hr, List.append_cons]
      refine ih h' (by rw [hall]; simp) ?_
      have hsize : ids'.size = ids.size + (addedNodes [c]).length := by
        rw [h'.size, addedNodes_append, List.length_append, h.size]
      rw [hsize]
      exact hc.2
    | error e g' =>
      rw [hr] at hstep
      rw [EGraph.bind_error hr]
      exact hstep

/-! ## Nothing else is equal -/

/-- What the graph makes equal is related by the closure. -/
theorem closure_of_find_eq (h : Ran analysis all done ids g o) {i j : Nat} (hi : i < ids.size)
    (hj : j < ids.size) (hij : g.find (ids.getD i 0) = g.find (ids.getD j 0)) :
    Closure analysis all (.added i) (.added j) := by
  have hvalue := h.valid.sound.value_eq (h.lt i hi) (h.lt j hj) hij
  rw [h.value i hi, h.value j hj] at hvalue
  exact Quotient.exact hvalue

theorem closure_of_constantAt (h : Ran analysis all done ids g o) {i : Nat} {k : Constant}
    (hi : i < ids.size) (hk : g.constantAt? (ids.getD i 0) = some k) :
    Closure analysis all (.added i) (.const k) := by
  have hvalue := h.valid.sound.value_const _ k hk
  rw [h.value i hi] at hvalue
  exact Quotient.exact hvalue

/-! ## Nothing is missing -/

/-- The class of a point; a constant whose leaf was never entered has none. -/
def place (g : EGraph) (ids : Array ClassId) : Point → ClassId ⊕ Constant
  | .added i => .inl (g.find (ids.getD i 0))
  | .const c => match g.memo[(Node.leaf (.const c) : ENode)]? with
    | some j => .inl (g.find j)
    | none => .inr c

theorem place_const_eq_inl {id : ClassId} {c : Constant} :
    place g ids (.const c) = .inl id ↔
      ∃ j, g.memo[(Node.leaf (.const c) : ENode)]? = some j ∧ g.find j = id := by
  show (match g.memo[(Node.leaf (.const c) : ENode)]? with
    | some j => Sum.inl (g.find j)
    | none => .inr c) = .inl id ↔ _
  cases g.memo[(Node.leaf (.const c) : ENode)]? with
  | none => simp
  | some j => simp

theorem place_const_eq_inr {c k : Constant} (h : place g ids (.const c) = .inr k) : c = k := by
  change (match g.memo[(Node.leaf (.const c) : ENode)]? with
    | some j => Sum.inl (g.find j)
    | none => .inr c) = .inr k at h
  split at h
  · cases h
  · exact Sum.inr.inj h

/-- The class of a constant's leaf is known to be the constant. -/
theorem constantAt_of_place (h : Ran analysis all done ids g o)
    (ha : analysis = .constantFolding) {id : ClassId} {c : Constant}
    (hc : place g ids (.const c) = .inl (g.find id)) :
    g.constantAt? id = some c := by
  obtain ⟨j, hj, hf⟩ := place_const_eq_inl.1 hc
  obtain ⟨i, hi, hn, hji⟩ := EGraph.exists_of_memo_const h.valid.toCore hj
  rw [EGraph.constantAt_of_find_eq (hf.symm.trans hji)]
  exact h.valid.complete.const (h.valid.sound.analysis.trans ha) i hi c hn

/-- A class that is known to be a constant is the class of the constant's leaf. -/
theorem place_of_constantAt (h : Ran analysis all done ids g o) {id : ClassId} {c : Constant}
    (hc : g.constantAt? id = some c) : place g ids (.const c) = .inl (g.find id) := by
  obtain ⟨d, hd⟩ := EGraph.exists_stored h.valid.shape (EGraph.lt_of_constantAt h.valid.shape hc)
  rw [← EGraph.constantAt_find h.valid.shape, EGraph.constantAt_of_stored h.valid.shape hd] at hc
  obtain ⟨hmemo, -⟩ := h.valid.settled _ d c (fun hf => hf) hd hc
  exact place_const_eq_inl.2 hmemo

/-- A point with a node has the place of an entry of that node, or is a constant without. -/
theorem stands_of_node (h : Ran analysis all all ids g o) {p : Point} {n : Node Nat}
    (hp : p.node? (addedNodes all) = some n) :
    (∃ id, place g ids p = .inl (g.find id) ∧ g.Stands o (n.map fun i => ids.getD i 0, id)) ∨
      ∃ c, p = .const c ∧ g.memo[(Node.leaf (.const c) : ENode)]? = none := by
  cases p with
  | added i => exact Or.inl ⟨ids.getD i 0, rfl, h.stands i n hp⟩
  | const c =>
    cases hj : g.memo[(Node.leaf (.const c) : ENode)]? with
    | none => exact Or.inr ⟨c, rfl, hj⟩
    | some j =>
      obtain rfl := (Option.some.inj hp).symm
      exact Or.inl ⟨j, place_const_eq_inl.2 ⟨j, hj, rfl⟩, h.valid.founded.memo _ j hj⟩

/-- Congruent points have one place, once all repairs are made. -/
theorem place_eq_of_congr (h : Ran analysis all all ids g o) (hpending : g.pending = [])
    {p q : Point} {m n : Node Nat} (hp : p.node? (addedNodes all) = some m)
    (hq : q.node? (addedNodes all) = some n) (hmn : m.outline = n.outline)
    (hchild : ∀ c ∈ m.children.zip n.children,
      place g ids (.added c.1) = place g ids (.added c.2)) : place g ids p = place g ids q := by
  have hcan : g.canonicalize (m.map fun i => ids.getD i 0) =
      g.canonicalize (n.map fun i => ids.getD i 0) := by
    unfold EGraph.canonicalize
    rw [Node.map_map, Node.map_map]
    exact Node.map_eq_map_iff.2 ⟨hmn, fun c hc => Sum.inl.inj (hchild c hc)⟩
  rcases stands_of_node h hp with ⟨a, hpa, ha⟩ | ⟨c, rfl, hc⟩ <;>
    rcases stands_of_node h hq with ⟨b, hqb, hb⟩ | ⟨d, rfl, hd⟩
  · have hab := EGraph.find_eq_of_canonicalize_eq h.valid.known hpending ha hb hcan
    rw [hpa, hqb, hab]
  · -- the memo knows the leaf, since it is entered
    obtain rfl := (Option.some.inj hq).symm
    obtain ⟨j, hj, -⟩ := EGraph.found_of_stands h.valid.known hpending ha
    rw [hcan] at hj
    exact absurd (hj.symm.trans hd) (by simp)
  · obtain rfl := (Option.some.inj hp).symm
    obtain ⟨j, hj, -⟩ := EGraph.found_of_stands h.valid.known hpending hb
    rw [← hcan] at hj
    exact absurd (hj.symm.trans hc) (by simp)
  · obtain rfl := (Option.some.inj hp).symm
    obtain rfl := (Option.some.inj hq).symm
    have hcd : c = d := by simpa [Node.outline, Node.map] using hmn
    rw [hcd]

/-- A node over known constants has the place of the constant that it folds to, once all
evaluations are made. -/
theorem place_eq_of_fold (h : Ran analysis all all ids g o) (hfold : g.foldPending = [])
    (ha : analysis = .constantFolding) {p : Point} {n : Node Nat} {m : Node Constant}
    {k : Constant} (hp : p.node? (addedNodes all) = some n) (hnm : n.outline = m.outline)
    (hchild : ∀ c ∈ n.children.zip m.children,
      place g ids (.added c.1) = place g ids (.const c.2))
    (hk : (m.map some).fold? = some k) : place g ids p = place g ids (.const k) := by
  have hmap : (n.map fun i => ids.getD i 0).map g.constantAt? = m.map some := by
    rw [Node.map_map]
    exact Node.map_eq_map_iff.2 ⟨hnm, fun c hc => constantAt_of_place h ha (hchild c hc).symm⟩
  have hnode : g.foldNode (n.map fun i => ids.getD i 0) = some k := by
    rw [EGraph.foldNode, h.valid.sound.analysis.trans ha, hmap]
    exact hk
  rcases stands_of_node h hp with ⟨id, hid, i, hi, hni, hfi⟩ | ⟨c, rfl, -⟩
  · rw [EGraph.foldNode_of_canonicalize_eq h.valid.shape hni] at hnode
    rcases h.valid.complete.folded i hi k hnode with hconst | ⟨v, hv, -⟩
    · rw [hid, place_of_constantAt h hconst, hfi]
    · rw [hfold] at hv
      cases hv
  · obtain rfl := (Option.some.inj hp).symm
    obtain rfl : m = .leaf (.const c) := by
      cases m <;> simp [Node.outline, Node.map] at hnm
      rw [hnm]
    cases hk
    rfl

/-- **Completeness**: what the closure relates has one place after a rebuild. -/
theorem place_eq_of_closure (h : Ran analysis all all ids g o) (hpending : g.pending = [])
    (hfold : g.foldPending = []) {p q : Point} (hpq : Closure analysis all p q) :
    place g ids p = place g ids q := by
  induction hpq with
  | refl p => rfl
  | symm _ ih => exact ih.symm
  | trans _ _ ih ih' => exact ih.trans ih'
  | union hij => exact congrArg Sum.inl (h.united _ _ hij)
  | congr hp hq hmn _ ih => exact place_eq_of_congr h hpending hp hq hmn ih
  | fold ha hp hnm _ hk ih => exact place_eq_of_fold h hfold ha hp hnm ih hk

/-- Two constants of one place are one. -/
theorem eq_of_place_const (h : Ran analysis all done ids g o) (ha : analysis = .constantFolding)
    {c d : Constant} (hcd : place g ids (.const c) = place g ids (.const d)) : c = d := by
  cases hc : place g ids (.const c) with
  | inl id =>
    obtain ⟨j, hj, rfl⟩ := place_const_eq_inl.1 hc
    have hconst := constantAt_of_place h ha hc
    rw [constantAt_of_place h ha (hcd.symm.trans hc)] at hconst
    exact (Option.some.inj hconst).symm
  | inr k =>
    rw [hc] at hcd
    rw [place_const_eq_inr hc, place_const_eq_inr hcd.symm]

/-! ## Scripts decide their closure -/

/-- More nodes and more unions relate more. -/
theorem Closure.mono {calls calls' : List Call} {p q : Point}
    (hnodes : addedNodes calls <+: addedNodes calls')
    (hunions : ∀ i j, .union i j ∈ calls → .union i j ∈ calls')
    (h : Closure analysis calls p q) : Closure analysis calls' p q := by
  have hnode : ∀ {p : Point} {n : Node Nat}, p.node? (addedNodes calls) = some n →
      p.node? (addedNodes calls') = some n := by
    intro p n hp
    cases p with
    | added i =>
      obtain ⟨more, hmore⟩ := hnodes
      have hi : (addedNodes calls)[i]? = some n := hp
      show (addedNodes calls')[i]? = some n
      rw [← hmore, List.getElem?_append_left (List.getElem?_eq_some_iff.1 hi).1, hi]
    | const c => exact hp
  induction h with
  | refl p => exact .refl p
  | symm _ ih => exact ih.symm
  | trans _ _ ih ih' => exact ih.trans ih'
  | union hij => exact .union (hunions _ _ hij)
  | congr hp hq hmn _ ih => exact .congr (hnode hp) (hnode hq) hmn ih
  | fold ha hp hnm _ hk ih => exact .fold ha (hnode hp) hnm ih hk

theorem closure_append_rebuild {calls : List Call} {p q : Point} :
    Closure analysis (calls ++ [.rebuild]) p q ↔ Closure analysis calls p q := by
  have hadded : addedNodes (calls ++ [.rebuild]) = addedNodes calls := by
    rw [addedNodes_append]
    exact List.append_nil _
  constructor
  · refine Closure.mono (by rw [hadded]) fun i j hij => ?_
    rcases List.mem_append.1 hij with hij | hij
    · exact hij
    · cases List.mem_singleton.1 hij
  · exact Closure.mono (by rw [hadded]) fun i j hij => List.mem_append_left _ hij

theorem closed_append {count : Nat} {calls more : List Call} (h : Closed count (calls ++ more)) :
    Closed count calls ∧ Closed (count + (addedNodes calls).length) more := by
  induction calls generalizing count with
  | nil => exact ⟨trivial, h⟩
  | cons c cs ih =>
    obtain ⟨hcs, hmore⟩ := ih h.2
    refine ⟨⟨h.1, hcs⟩, ?_⟩
    have hlen : (addedNodes (c :: cs)).length =
        (addedNodes [c]).length + (addedNodes cs).length := by
      rw [← List.length_append, ← addedNodes_append]
      rfl
    rw [hlen, ← Nat.add_assoc]
    exact hmore

theorem runCalls_append (calls more : List Call) (ids : Array ClassId) (g : EGraph) :
    runCalls (calls ++ more) ids g = (runCalls calls ids >>= fun ids => runCalls more ids) g := by
  induction calls generalizing ids g with
  | nil => rfl
  | cons c cs ih =>
    show (c.run ids >>= fun ids => runCalls (cs ++ more) ids) g =
      ((c.run ids >>= fun ids => runCalls cs ids) >>= fun ids => runCalls more ids) g
    cases hr : c.run ids g with
    | ok ids' g' =>
      have hfirst : (c.run ids >>= fun ids => runCalls cs ids) g = runCalls cs ids' g' :=
        EGraph.bind_ok hr
      rw [EGraph.bind_ok hr, ih]
      cases hcs : runCalls cs ids' g' with
      | ok ids'' g'' => rw [EGraph.bind_ok hcs, EGraph.bind_ok (hfirst.trans hcs)]
      | error e g'' => rw [EGraph.bind_error hcs, EGraph.bind_error (hfirst.trans hcs)]
    | error e g' =>
      have hfirst : (c.run ids >>= fun ids => runCalls cs ids) g = .error e g' :=
        EGraph.bind_error hr
      rw [EGraph.bind_error hr, EGraph.bind_error hfirst]

/-- A script and a rebuild run to the end, or constants that the closure relates conflict. -/
theorem runCalls_rebuild (analysis : Analysis) {calls : List Call} (h : Closed 0 calls) :
    (∃ ids g o, runCalls (calls ++ [.rebuild]) #[] (.empty analysis) = .ok ids g ∧
      Ran analysis (calls ++ [.rebuild]) (calls ++ [.rebuild]) ids g o ∧
      g.pending = [] ∧ g.foldPending = []) ∨
    ∃ e g, runCalls (calls ++ [.rebuild]) #[] (.empty analysis) = .error e g ∧
      EGraph.Clash (closureMeaning analysis (calls ++ [.rebuild])) e := by
  have hall : calls ++ [.rebuild] = [] ++ (calls ++ [.rebuild]) := rfl
  have hran := ran_runCalls calls (ran_empty analysis (calls ++ [.rebuild])
    ⟨fun _ => .leaf default, fun _ => Quotient.mk _ (.added 0)⟩) hall h
  rw [List.nil_append] at hran
  rw [runCalls_append]
  cases hr : runCalls calls #[] (.empty analysis) with
  | ok ids g =>
    rw [hr] at hran
    obtain ⟨o, hran⟩ := hran
    rw [EGraph.bind_ok hr]
    show (∃ ids' g' o', (Call.rebuild.run ids >>= fun ids => return ids) g = .ok ids' g' ∧ _) ∨
      ∃ e g', (Call.rebuild.run ids >>= fun ids => return ids) g = .error e g' ∧ _
    rcases ran_rebuild hran with ⟨g', o', hok, hran', htidy⟩ | ⟨e, g', herror, hclash⟩
    · exact Or.inl ⟨ids, g', o', EGraph.bind_ok hok, hran', htidy.pending, htidy.foldPending⟩
    · exact Or.inr ⟨e, g', EGraph.bind_error herror, hclash⟩
  | error e g =>
    rw [hr] at hran
    exact Or.inr ⟨e, g, EGraph.bind_error hr, hran⟩

/-- The graph finds equal what the closure relates and nothing else, and knows of each class the
constant that the closure relates it with; every class is one of an added node. -/
structure Decided (calls : List Call) (ids : Array ClassId) (g : EGraph) : Prop where
  size : ids.size = (addedNodes calls).length
  equivalent : ∀ i j, i < ids.size → j < ids.size →
    (g.equivalent (ids.getD i 0) (ids.getD j 0) = true ↔
      Closure .constantFolding calls (.added i) (.added j))
  constant : ∀ i k, i < ids.size → (g.constantAt? (ids.getD i 0) = some k ↔
    Closure .constantFolding calls (.added i) (.const k))
  covered : ∀ id, id < g.size → ∃ i, i < ids.size ∧ g.equivalent id (ids.getD i 0) = true

theorem decided_of_ran {o : Origin (Quotient (closureSetoid .constantFolding all))}
    (h : Ran .constantFolding all all ids g o) (hpending : g.pending = [])
    (hfold : g.foldPending = []) : Decided all ids g where
  size := h.size
  equivalent := by
    intro i j hi hj
    rw [EGraph.equivalent, beq_iff_eq]
    refine ⟨closure_of_find_eq h hi hj, fun hij => ?_⟩
    exact Sum.inl.inj (place_eq_of_closure h hpending hfold hij)
  constant := by
    intro i k hi
    refine ⟨closure_of_constantAt h hi, fun hik => ?_⟩
    exact constantAt_of_place h rfl (place_eq_of_closure h hpending hfold hik).symm
  covered := by
    intro id hid
    obtain ⟨i, hi, hf⟩ := h.covered id hid
    exact ⟨i, hi, by rw [EGraph.equivalent, beq_iff_eq, hf]⟩

theorem Decided.of_append_rebuild {calls : List Call} (h : Decided (calls ++ [.rebuild]) ids g) :
    Decided calls ids g where
  size := by
    rw [h.size, addedNodes_append]
    exact congrArg List.length (List.append_nil _)
  equivalent := fun i j hi hj => (h.equivalent i j hi hj).trans closure_append_rebuild
  constant := fun i k hi => (h.constant i k hi).trans closure_append_rebuild
  covered := h.covered

/-- **Calls decide their closure.**  If the calls make no two constants equal, none of them
fails, and after every rebuild among them the graph has decided the closure of the calls up to
there.  If they do, a conflict is found, at a closing rebuild at the latest. -/
theorem decides_closure (calls : List Call) (h : Closed 0 calls) :
    (Consistent .constantFolding calls →
      (∃ ids g, runCalls calls #[] (.empty .constantFolding) = .ok ids g) ∧
      ∀ before after, calls = before ++ .rebuild :: after →
        ∃ ids g, runCalls (before ++ [.rebuild]) #[] (.empty .constantFolding) = .ok ids g ∧
          Decided before ids g) ∧
    (¬Consistent .constantFolding calls →
      ∃ e g, runCalls (calls ++ [.rebuild]) #[] (.empty .constantFolding) = .error e g) := by
  have hclash : ∀ {before : List Call} {e : Conflict}, Consistent .constantFolding before →
      ¬EGraph.Clash (closureMeaning .constantFolding (before ++ [.rebuild])) e := by
    rintro before e hcons ⟨hne, heq⟩
    exact hne (hcons _ _ (closure_append_rebuild.1 (Quotient.exact heq)))
  constructor
  · intro hcons
    constructor
    · rcases runCalls_rebuild .constantFolding h with ⟨ids, g, o, hrun, -⟩ | ⟨e, g, -, hc⟩
      · rw [runCalls_append] at hrun
        cases hr : runCalls calls #[] (.empty .constantFolding) with
        | ok ids' g' => exact ⟨ids', g', rfl⟩
        | error e g' =>
          rw [EGraph.bind_error hr] at hrun
          cases hrun
      · exact absurd hc (hclash hcons)
    · rintro before after rfl
      have hcons' : Consistent .constantFolding before := fun c d hcd => hcons c d
        (hcd.mono (by rw [addedNodes_append]; exact List.prefix_append _ _)
          fun i j hij => List.mem_append_left _ hij)
      rcases runCalls_rebuild .constantFolding (closed_append h).1 with
        ⟨ids, g, o, hrun, hran, hp, hf⟩ | ⟨e, g, -, hc⟩
      · exact ⟨ids, g, hrun, (decided_of_ran hran hp hf).of_append_rebuild⟩
      · exact absurd hc (hclash hcons')
  · intro hincons
    rcases runCalls_rebuild .constantFolding h with
      ⟨ids, g, o, hrun, hran, hp, hf⟩ | ⟨e, g, hrun, -⟩
    · refine absurd (fun c d hcd => ?_) hincons
      exact eq_of_place_const hran rfl
        (place_eq_of_closure hran hp hf (closure_append_rebuild.2 hcd))
    · exact ⟨e, g, hrun⟩

/-- With `x` joined to 1, the sum of both is known after a rebuild. -/
theorem decides_closure_sum :
    Closed 0 [.add (.leaf (.const (.int 1))), .add (.leaf (.var "x")), .union 0 1,
        .add (.binary .add 0 1), .rebuild] ∧
      ∃ ids g, runCalls [.add (.leaf (.const (.int 1))), .add (.leaf (.var "x")), .union 0 1,
          .add (.binary .add 0 1), .rebuild] #[] (.empty .constantFolding) = .ok ids g ∧
        Decided [.add (.leaf (.const (.int 1))), .add (.leaf (.var "x")), .union 0 1,
          .add (.binary .add 0 1)] ids g := by
  have hclosed : Closed 0 [.add (.leaf (.const (.int 1))), .add (.leaf (.var "x")), .union 0 1,
      .add (.binary .add 0 1), .rebuild] := by decide
  obtain ⟨hok, herror⟩ := decides_closure _ hclosed
  have hruns : (match runCalls ([.add (.leaf (.const (.int 1))), .add (.leaf (.var "x")),
      .union 0 1, .add (.binary .add 0 1), .rebuild] ++ [.rebuild]) #[]
        (.empty .constantFolding) with
    | .ok _ _ => true
    | .error _ _ => false) = true := by decide +kernel
  refine ⟨hclosed, (hok ?_).2 [_, _, _, _] [] rfl⟩
  by_contra hcons
  obtain ⟨e, g, hrun⟩ := herror hcons
  rw [hrun] at hruns
  cases hruns

end EqSat
