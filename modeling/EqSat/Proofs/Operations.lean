import EqSat.Proofs.Occurrences
import EqSat.Proofs.Orderly
import EqSat.Proofs.Terms

/-!
# Sequences of operations

Nodes and whole terms are added, classes joined, rules applied to matches, graphs rebuilt, in any
order.  Rebuilds apart, all that an operation does is to add nodes and to join classes.  What these
two keep is kept by every operation, also where a conflict cuts it short.  So all graphs that
operations make of the empty one are reachable.

Where an operation succeeds, it has changed nothing, or it has left the graph dirty and with more
ids or joins than before.

    Lasting.left_run     what nodes and joins keep, all operations keep, if rebuilds do
    Operated.reached     the graphs that operations make are reachable
    Operated.runAll      operations one after the other
-/

namespace EqSat

open EGraph

variable {analysis : Analysis} {g g' g'' : EGraph}

/-! ## Operations -/

/-- What can be asked of a graph. -/
inductive Operation where
  | add (n : ENode)
  | addTerm (t : Term)
  | union (a b : ClassId)
  | rebuild
  | apply (r : Rule) (ms : List Match)

/-- The match names classes of the graph, and binds all variables of the rule. -/
structure Match.Fits (g : EGraph) (r : Rule) (m : Match) : Prop where
  lt : m.1 < g.size
  binds : ∀ x ∈ r.lhs.vars, m.2.Binds g x

/-- A match names classes of the graph that it is found in. -/
theorem EGraph.Grounded.fits {r : Rule} {m : Match} (h : g.Grounded) (hm : m ∈ r.search g) :
    Match.Fits g r m := by
  obtain ⟨hc, hs⟩ := Pattern.mem_search.1 hm
  have hid := ((Pattern.exists_mem_classList h.shape).1 hc).1
  have hmatch := Subst.mem_of_mem_distinct hs
  have hinside := Pattern.matchesAt_inside h (fun b hb => by cases hb) hid hmatch
  refine ⟨hid, fun x hx => hinside.binds ?_⟩
  rw [Pattern.names_of_mem_matchesAt hmatch]
  exact hx

namespace Operation

/-- Do it, whatever it gives back. -/
def run : Operation → Update Unit
  | .add n => do let _ ← EGraph.add n
  | .addTerm t => do let _ ← EGraph.addTerm t
  | .union a b => do let _ ← EGraph.union a b
  | .rebuild => do let _ ← EGraph.rebuild
  | .apply r ms => do let _ ← r.applyAll ms

/-- Only classes of the graph are named.  Matches need not have been found in it. -/
def Fits (g : EGraph) : Operation → Prop
  | .add n => ∀ a ∈ n.children, a < g.size
  | .union a b => a < g.size ∧ b < g.size
  | .apply r ms => ∀ m ∈ ms, Match.Fits g r m
  | _ => True

end Operation

/-- The graphs that operations make of the empty one, also those that a conflict has cut short. -/
inductive Operated (analysis : Analysis) : EGraph → Prop where
  | empty : Operated analysis (empty analysis)
  | step {g : EGraph} (h : Operated analysis g) (op : Operation) (hop : op.Fits g) :
    Operated analysis (left (op.run g))

theorem EGraph.Stirred.trans (h : Stirred g g') (h' : Stirred g' g'') : Stirred g g'' := by
  rcases h' with rfl | ⟨hdirty, hlt'⟩
  · exact h
  · rcases h with rfl | ⟨-, hlt⟩
    · exact .inr ⟨hdirty, hlt'⟩
    · exact .inr ⟨hdirty, Nat.lt_trans hlt hlt'⟩

/-- Steps that come back to where they started have changed nothing. -/
theorem EGraph.Stirred.antisymm (h : Stirred g g') (h' : Stirred g' g) : g' = g := by
  rcases h with rfl | ⟨-, hlt⟩
  · rfl
  · rcases h' with rfl | ⟨-, hlt'⟩
    · rfl
    · exact absurd (Nat.lt_trans hlt hlt') (Nat.lt_irrefl _)

/-- A property of reachable graphs that nodes and joins keep, also where constants conflict. -/
structure Lasting (analysis : Analysis) (P : EGraph → Prop) : Prop where
  reached : ∀ {g}, P g → Reached analysis g
  add : ∀ {g} n, P g → (∀ a ∈ n.children, a < g.size) → P (left (add n g))
  union : ∀ {g} a b, P g → a < g.size → b < g.size → P (left (union a b g))

/-- The children of a node of a term, once they have been added. -/
theorem child_lt_of_mapM {n : Node Nat} {ids : Array ClassId} {m : ENode}
    (hids : ∀ id ∈ ids, id < g.size) (hm : n.mapM (ids[·]?) = some m) :
    ∀ a ∈ m.children, a < g.size := by
  intro a ha
  have hmem : some a ∈ (n.map (ids[·]?)).children := by
    rw [Node.mapM_eq_some_iff.1 hm]
    exact Node.mem_children_map some ha
  rw [Node.children_map, List.mem_map] at hmem
  obtain ⟨i, -, hi⟩ := hmem
  exact hids a (Array.mem_of_getElem? hi)

theorem lt_of_mem_push {ids : Array ClassId} {id : ClassId} (hids : ∀ id ∈ ids, id < g.size)
    (hle : g.size ≤ g'.size) (hid : id < g'.size) : ∀ j ∈ ids.push id, j < g'.size := by
  intro j hj
  rcases Array.mem_push.1 hj with hj | rfl
  · exact Nat.lt_of_lt_of_le (hids j hj) hle
  · exact hid

theorem lasting_reached (analysis : Analysis) : Lasting analysis (Reached analysis) :=
  ⟨id, fun n h hn => h.add n hn, fun a b h ha hb => h.union a b ha hb⟩

/-- A step keeps `P`, also where it fails.  Where it succeeds, it leads to what `Q` says. -/
def Arrives {α : Type} (P : EGraph → Prop) (Q : α → EGraph → Prop) (g : EGraph) :
    EStateM.Result Conflict EGraph α → Prop
  | .ok a g' => P g' ∧ g.size ≤ g'.size ∧ Stirred g g' ∧ Q a g'
  | .error _ g' => P g'

namespace Arrives

variable {α β : Type} {P : EGraph → Prop} {Q : α → EGraph → Prop} {R : β → EGraph → Prop}

theorem pure {a : α} (h : P g) (ha : Q a g) : Arrives P Q g (.ok a g) :=
  ⟨h, Nat.le_refl _, .inl rfl, ha⟩

theorem bind {s : Update α} {f : α → Update β} (hs : Arrives P Q g (s g))
    (hf : ∀ a g', s g = .ok a g' → P g' → g.size ≤ g'.size → Q a g' →
      Arrives P R g' (f a g')) : Arrives P R g ((s >>= f) g) := by
  cases hrun : s g with
  | ok a g' =>
    rw [hrun] at hs
    obtain ⟨hP, hle, hstirred, hQ⟩ := hs
    have hnext := hf a g' hrun hP hle hQ
    rw [bind_ok hrun]
    cases hrun' : f a g' with
    | ok b g'' =>
      rw [hrun'] at hnext
      exact ⟨hnext.1, Nat.le_trans hle hnext.2.1, hstirred.trans hnext.2.2.1, hnext.2.2.2⟩
    | error e g'' =>
      rw [hrun'] at hnext
      exact hnext
  | error e g' =>
    rw [hrun] at hs
    rw [bind_error hrun]
    exact hs

theorem left {r : EStateM.Result Conflict EGraph α} (h : Arrives P Q g r) : P (left r) := by
  cases r with
  | ok a g' => exact h.1
  | error e g' => exact h

theorem stirred {a : α} (h : Arrives P Q g (.ok a g')) : Stirred g g' := h.2.2.1

end Arrives

variable {P : EGraph → Prop}

namespace Lasting

/-- **Adding** a node never fails, and gives a representative. -/
theorem exists_add (hP : Lasting analysis P) (h : P g) {n : ENode}
    (hn : ∀ a ∈ n.children, a < g.size) :
    ∃ id g', EGraph.add n g = .ok id g' ∧ P g' ∧ g.size ≤ g'.size ∧ Stirred g g' ∧
      g'.Current id := by
  have hreached := hP.reached h
  have hleads := leads_add hreached.backed hn
  have hkept := hP.add n h hn
  obtain ⟨id, g', hrun, hc, hon, hstirred⟩ := add_coherent hreached.orderly.toCoherent hn
  rw [hrun] at hleads hkept
  refine ⟨id, g', hrun, hkept, hon.size_le, hstirred, hleads.2.2.lt hc.shape, ?_⟩
  rw [add_eq] at hrun
  split at hrun
  · cases hrun
    exact find_find hc.shape _
  · obtain ⟨_, g₁, -, hrun⟩ := bind_eq_ok hrun
    cases hrun
    exact find_find hc.shape _

theorem arrives_add (hP : Lasting analysis P) (h : P g) {n : ENode}
    (hn : ∀ a ∈ n.children, a < g.size) :
    Arrives P (fun id g' => g'.Current id) g (EGraph.add n g) := by
  obtain ⟨id, g', hrun, hkept⟩ := hP.exists_add h hn
  rw [hrun]
  exact hkept

theorem arrives_union (hP : Lasting analysis P) (h : P g) {a b : ClassId} (ha : a < g.size)
    (hb : b < g.size) :
    Arrives P (fun _ g' => g'.find a = g'.find b) g (EGraph.union a b g) := by
  have hkept := hP.union a b h ha hb
  have hc := (hP.reached h).orderly
  rcases union_coherent hc.toIndexed hc.settled (hc.recalled.upTo a b) ha hb with
    ⟨g', hrun, hu⟩ | ⟨e, hrun, -⟩
  · rw [hrun] at hkept ⊢
    exact ⟨hkept, hu.ongoing.size_le, hu.stirred, hu.find_eq⟩
  · rw [hrun] at hkept ⊢
    exact hkept

theorem arrives_addNodes (hP : Lasting analysis P) (ns : List (Node Nat)) {ids : Array ClassId}
    {g : EGraph} (h : P g) (hids : ∀ id ∈ ids, id < g.size) :
    Arrives P (fun _ _ => True) g (addNodes ns ids g) := by
  induction ns generalizing ids g with
  | nil => exact .pure h trivial
  | cons n ns ih =>
    rw [addNodes]
    cases hm : n.mapM (ids[·]?) with
    | none => exact ih h hids
    | some m =>
      exact (hP.arrives_add h (child_lt_of_mapM hids hm)).bind fun id g' _ h' hle hid =>
        ih h' (lt_of_mem_push hids hle hid.1)

theorem arrives_addTerm (hP : Lasting analysis P) (h : P g) (t : Term) :
    Arrives P (fun _ _ => True) g (addTerm t g) := by
  refine (hP.arrives_addNodes t.nodes.toList h fun id hid => ?_).bind fun ids g' _ h' _ _ => ?_
  · simp at hid
  · exact .pure h' trivial

end Lasting

/-! ## Applying a rule -/

theorem Match.Fits.mono {r : Rule} {m : Match} (h : Match.Fits g r m) (hle : g.size ≤ g'.size) :
    Match.Fits g' r m :=
  ⟨Nat.lt_of_lt_of_le h.lt hle, fun x hx => (h.binds x hx).mono hle⟩

namespace Lasting

/-- **Building** a pattern of known variables never fails, and gives a representative. -/
theorem exists_build (hP : Lasting analysis P) (p : Pattern) {s : Subst} {g : EGraph} (h : P g)
    (hs : ∀ x ∈ p.vars, s.Binds g x) :
    ∃ id g', p.build s g = .ok id g' ∧ P g' ∧ g.size ≤ g'.size ∧ Stirred g g' ∧
      g'.Current id := by
  induction p generalizing g with
  | hole x =>
    obtain ⟨c, hc, hlt⟩ := hs x (by simp [Pattern.vars, Pattern.varsFrom])
    have hshape := (hP.reached h).backed.shape
    refine ⟨g.find (s.get x), g, rfl, h, Nat.le_refl _, .inl rfl, ?_, find_find hshape _⟩
    rw [Subst.get_eq hc]
    exact find_lt hshape hlt
  | leaf l => exact hP.exists_add h fun a ha => by cases ha
  | unary op p ih =>
    obtain ⟨a, g₁, hp, h₁, hle₁, hstirred₁, ha⟩ := ih h hs
    have hchild : ∀ c ∈ (Node.unary op a).children, c < g₁.size := by
      simpa [Node.children] using ha.1
    obtain ⟨id, g', hadd, h', hle', hstirred', hid⟩ := hP.exists_add h₁ hchild
    exact ⟨id, g', (bind_ok hp).trans hadd, h', Nat.le_trans hle₁ hle',
      hstirred₁.trans hstirred', hid⟩
  | binary op p q ihp ihq =>
    obtain ⟨a, g₁, hp, h₁, hle₁, hstirred₁, ha⟩ :=
      ihp h fun x hx => hs x (Pattern.mem_vars_binary.2 (.inl hx))
    obtain ⟨b, g₂, hq, h₂, hle₂, hstirred₂, hb⟩ := ihq h₁ fun x hx =>
      (hs x (Pattern.mem_vars_binary.2 (.inr hx))).mono hle₁
    have hchild : ∀ c ∈ (Node.binary op a b).children, c < g₂.size := by
      simpa [Node.children] using ⟨Nat.lt_of_lt_of_le ha.1 hle₂, hb.1⟩
    obtain ⟨id, g', hadd, h', hle', hstirred', hid⟩ := hP.exists_add h₂ hchild
    have hrun : (Pattern.binary op p q).build s g = .ok id g' :=
      (bind_ok hp).trans ((bind_ok hq).trans hadd)
    exact ⟨id, g', hrun, h', Nat.le_trans hle₁ (Nat.le_trans hle₂ hle'),
      hstirred₁.trans (hstirred₂.trans hstirred'), hid⟩

theorem arrives_build (hP : Lasting analysis P) (p : Pattern) {s : Subst} {g : EGraph} (h : P g)
    (hs : ∀ x ∈ p.vars, s.Binds g x) :
    Arrives P (fun id g' => g'.Current id) g (p.build s g) := by
  obtain ⟨id, g', hrun, hkept⟩ := hP.exists_build p h hs
  rw [hrun]
  exact hkept

theorem arrives_applyMatch (hP : Lasting analysis P) (h : P g) {r : Rule} {m : Match}
    (hm : Match.Fits g r m) : Arrives P (fun _ _ => True) g (r.applyMatch m g) := by
  rw [Rule.applyMatch_eq]
  split
  · refine (hP.arrives_build r.rhs h fun x hx => hm.binds x (r.rhs_bound x hx)).bind
      fun b g' _ h' hle hb => ?_
    have hunion := hP.arrives_union h' (Nat.lt_of_lt_of_le hm.lt hle) hb.1
    cases hrun : EGraph.union m.1 b g' with
    | ok joined g'' =>
      rw [hrun] at hunion
      exact ⟨hunion.1, hunion.2.1, hunion.2.2.1, trivial⟩
    | error e g'' =>
      rw [hrun] at hunion
      exact hunion
  · exact .pure h trivial

theorem arrives_applyFrom (hP : Lasting analysis P) {r : Rule} (ms : List Match) (joined : Nat)
    {g : EGraph} (h : P g) (hms : ∀ m ∈ ms, Match.Fits g r m) :
    Arrives P (fun _ _ => True) g (r.applyFrom ms joined g) := by
  induction ms generalizing joined g with
  | nil => exact .pure h trivial
  | cons m ms ih =>
    refine (hP.arrives_applyMatch h (hms m List.mem_cons_self)).bind
      fun changed g' _ h' hle _ => ?_
    exact ih _ h' fun m' hm' => (hms m' (List.mem_cons_of_mem _ hm')).mono hle

end Lasting

/-! ## Sequences of operations -/

theorem left_run_bind {α : Type} (s : Update α) (g : EGraph) :
    left ((s >>= fun _ => pure () : Update Unit) g) = left (s g) := by
  cases hrun : s g with
  | ok a g' => rw [bind_ok hrun]; rfl
  | error e g' => rw [bind_error hrun]; rfl

/-- What nodes and joins keep, all operations keep, if rebuilds do. -/
theorem Lasting.left_run (hP : Lasting analysis P) (h : P g) {op : Operation} (hop : op.Fits g)
    (hrebuild : op = .rebuild → P (left (rebuild g))) : P (left (op.run g)) := by
  cases op with
  | add n => exact left_run_bind (EGraph.add n) g ▸ hP.add n h hop
  | addTerm t => exact left_run_bind (EGraph.addTerm t) g ▸ (hP.arrives_addTerm h t).left
  | union a b => exact left_run_bind (EGraph.union a b) g ▸ hP.union a b h hop.1 hop.2
  | rebuild => exact left_run_bind EGraph.rebuild g ▸ hrebuild rfl
  | apply r ms => exact left_run_bind (r.applyAll ms) g ▸ (hP.arrives_applyFrom ms 0 h hop).left

/-- **The graphs that operations make** are reachable. -/
theorem Operated.reached (h : Operated analysis g) : Reached analysis g := by
  induction h with
  | empty => exact .empty
  | step _ op hop ih => exact (lasting_reached analysis).left_run ih hop fun _ => ih.rebuild

/-- What a list of operations leaves of a graph. -/
def Operation.runAll : List Operation → EGraph → EGraph
  | [], g => g
  | op :: ops, g => runAll ops (left (op.run g))

/-- Each operation of the list fits the graph that it is done on. -/
def Operation.FitAll : List Operation → EGraph → Prop
  | [], _ => True
  | op :: ops, g => op.Fits g ∧ FitAll ops (left (op.run g))

theorem Operated.runAll (h : Operated analysis g) {ops : List Operation}
    (hops : Operation.FitAll ops g) : Operated analysis (Operation.runAll ops g) := by
  induction ops generalizing g with
  | nil => exact h
  | cons op ops ih => exact ih (h.step op hops.1) hops.2

end EqSat
