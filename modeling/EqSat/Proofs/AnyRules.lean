import EqSat.Proofs.Runs

/-!
# Runs of any rules

A graph that is in order for one meaning of nodes is so for every coarser one.  In the coarsest
all nodes have the one value there is.  There every rule holds, so that whatever the rules are,
a run keeps its graphs in order and leaves a tidy one where no conflict ends it.

    Valid.map           from a meaning to a coarser one
    sets_anyMeaning     all rules keep the graph in order
-/

namespace EqSat

open EGraph

variable {D E : Type} {I : Meaning D} {J : Meaning E} {g : EGraph} {o : Origin D}

/-! ## Coarser meanings -/

/-- The same nodes, with other values. -/
def Origin.map (f : D → E) (o : Origin D) : Origin E := ⟨o.node, fun i => f (o.value i)⟩

/-- Values of nodes are mapped to values. -/
structure Coarser (I : Meaning D) (J : Meaning E) (f : D → E) : Prop where
  analysis : J.analysis = I.analysis
  const : ∀ k, J.const k = f (I.const k)
  holds : ∀ n d, I.Holds n d → J.Holds (n.map f) (f d)

/-- Only soundness depends on the values. -/
theorem EGraph.Valid.revalue (h : Valid I g o) {v : ClassId → E}
    (hs : g.Sound J ⟨o.node, v⟩) : Valid J g ⟨o.node, v⟩ where
  shape := h.shape
  founded := ⟨h.founded.child_lt, h.founded.memo, h.founded.nodes, h.founded.parents,
    h.founded.pending, h.founded.foldPending⟩
  sound := hs
  complete := ⟨h.complete.used, h.complete.folded, h.complete.listed, h.complete.const,
    h.complete.unknown⟩
  known := h.known
  settled := h.settled

/-- **A graph in order** is so for a coarser meaning. -/
theorem EGraph.Valid.map {f : D → E} (hf : Coarser I J f) (h : Valid I g o) :
    Valid J g (o.map f) := by
  refine h.revalue ⟨h.sound.analysis.trans hf.analysis.symm, fun i hi => ?_, fun i hi => ?_,
    fun i k hk => ?_⟩
  · have hholds := hf.holds _ _ (h.sound.holds i hi)
    rwa [Node.map_map] at hholds
  · exact congrArg f (h.sound.value_find i hi)
  · rw [hf.const, ← h.sound.value_const i k hk]

/-! ## One value for all nodes -/

/-- The meaning in which all nodes have one value. -/
def anyMeaning (analysis : Analysis) : Meaning Unit where
  analysis := analysis
  const _ := ()
  Holds _ _ := True
  holds_const := fun _ => trivial
  unique := fun _ _ => rfl
  fold := fun _ _ _ _ _ _ => rfl

theorem coarser_anyMeaning (I : Meaning D) : Coarser I (anyMeaning I.analysis) fun _ => () :=
  ⟨rfl, fun _ => rfl, fun _ _ _ => trivial⟩

theorem Pattern.means_anyMeaning (analysis : Analysis) (σ : String → Unit) (p : Pattern)
    (d : Unit) : p.Means (anyMeaning analysis) σ d := by
  induction p with
  | hole x => rfl
  | leaf l => trivial
  | unary op p ih => exact ⟨(), ih, trivial⟩
  | binary op p q ihp ihq => exact ⟨(), (), ihp, ihq, trivial⟩

theorem Rule.holds_anyMeaning (analysis : Analysis) (r : Rule) : r.Holds (anyMeaning analysis) :=
  fun σ d _ => r.rhs.means_anyMeaning analysis σ d

/-- **Any rules** keep a graph in order. -/
theorem sets_anyMeaning {analysis : Analysis} {o : Origin Unit} (rules : List Rule)
    (h : Valid (anyMeaning analysis) g o) :
    Sets (anyMeaning analysis) rules (fun _ _ => True) g o :=
  ⟨keeps_of_holds fun r _ => r.holds_anyMeaning analysis, h, trivial⟩

end EqSat
