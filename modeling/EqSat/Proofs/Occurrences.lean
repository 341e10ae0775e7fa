import EqSat.Proofs.EGraph.Rebuild
import EqSat.Proofs.Matching
import EqSat.Proofs.Represented

/-!
# What a search finds

In a tidy graph the classes list nodes over classes as they are called now.  There the matches of a
pattern are its occurrences in the lists, all of them, each named by the classes that stand for the
variables.  Leaving out duplicates loses none: the substitutions of one class bind the same
variables in the same order.

    matchesAt_over       a match is an occurrence
    exists_matchesAt     an occurrence is matched
    search_map           where the lists of one graph go to those of another, so do the matches
-/

namespace EqSat

variable {g g' : EGraph} {p : Pattern} {σ : String → ClassId} {id : ClassId} {m : Match}

/-- The class lists the node. -/
def EGraph.Lists (g : EGraph) (n : ENode) (id : ClassId) : Prop := n ∈ g.nodesAt id

/-- A class of the graph, under the id it has now. -/
def EGraph.Current (g : EGraph) (id : ClassId) : Prop := id < g.size ∧ g.find id = id

/-- The classes list nodes over classes as they are called now. -/
structure EGraph.Listing (g : EGraph) : Prop where
  shape : g.Shape
  current : ∀ id n, n ∈ g.nodesAt id → ∀ a ∈ n.children, g.Current a

namespace Subst

/-- The variables that are bound, in order. -/
def names (s : Subst) : List String := s.map Prod.fst

/-- Substitutions of the same variables are told apart by their classes. -/
theorem eq_of_names {s s' : Subst} (hn : s.names = s'.names)
    (hc : s.map Prod.snd = s'.map Prod.snd) : s = s' := by
  rw [← List.zip_unzip s, ← List.zip_unzip s', List.unzip_eq_map, List.unzip_eq_map]
  exact congrArg₂ List.zip hn hc

/-- Of substitutions that bind the same variables, none is lost. -/
theorem mem_distinct {ss : List Subst} {s : Subst} {names : List String}
    (hnames : ∀ s ∈ ss, s.names = names) (hs : s ∈ ss) : s ∈ distinct ss := by
  obtain ⟨s', hs', hclasses⟩ := exists_mem_distinct hs
  have hnames' := (hnames s' (mem_of_mem_distinct hs')).trans (hnames s hs).symm
  rwa [← eq_of_names hnames' hclasses]

/-- The substitution names classes of the graph. -/
def Inside (g : EGraph) (s : Subst) : Prop := ∀ b ∈ s, b.2 < g.size

theorem Inside.binds {s : Subst} {x : String} (h : s.Inside g) (hx : x ∈ s.names) :
    s.Binds g x := by
  cases hlookup : s.lookup x with
  | none =>
    obtain ⟨b, hb, rfl⟩ := List.mem_map.1 hx
    simpa using List.lookup_eq_none_iff.1 hlookup b hb
  | some c =>
    obtain ⟨l₁, l₂, rfl, -⟩ := List.lookup_eq_some_iff.1 hlookup
    exact ⟨c, hlookup, h (x, c) (by simp)⟩

end Subst

namespace Pattern

/-- A match binds the variables of the pattern, in the order in which they occur. -/
theorem names_of_mem_matchesAt {s s' : Subst} (h : s' ∈ p.matchesAt g s id) :
    s'.names = p.varsFrom s.names := by
  induction p generalizing s s' id with
  | hole x =>
    have hmem : x ∈ s.names ↔ s.lookup x ≠ none := by
      rw [Subst.names, Ne, List.lookup_eq_none_iff]
      simp
    rcases mem_matchesAt_hole.1 h with ⟨hx, rfl⟩ | ⟨c, hx, -, rfl⟩
    · rw [varsFrom, if_neg (by rw [hmem, hx]; exact not_not_intro rfl), Subst.names,
        List.map_append]
      rfl
    · rw [varsFrom, if_pos (by rw [hmem, hx]; exact Option.some_ne_none c)]
  | leaf l =>
    obtain ⟨rfl, -⟩ := mem_matchesAt_leaf.1 h
    rfl
  | unary op p ih =>
    obtain ⟨a, -, hmem⟩ := mem_matchesAt_unary.1 h
    exact ih hmem
  | binary op p q ihp ihq =>
    obtain ⟨a, b, -, s₁, hs₁, hmem⟩ := mem_matchesAt_binary.1 h
    rw [ihq hmem, ihp hs₁, varsFrom]

/-- The classes bound are roots. -/
def Rooted (g : EGraph) (s : Subst) : Prop := ∀ x c, s.lookup x = some c → g.find c = c

/-- **A match** is an occurrence of the pattern, under all bindings that go on from it. -/
theorem matchesAt_over (h : g.Listing) {s s' : Subst} (hid : g.find id = id) (hs : Rooted g s)
    (hs' : s' ∈ p.matchesAt g s id) : s.Within s' ∧ Rooted g s' ∧
      (∀ x ∈ p.vars, ∃ c, s'.lookup x = some c) ∧
      ∀ s'', s'.Within s'' → p.Over g.Lists s''.get id := by
  induction p generalizing s s' id with
  | hole x =>
    rcases mem_matchesAt_hole.1 hs' with ⟨hx, rfl⟩ | ⟨c, hx, hc, rfl⟩
    · have hlookup := Subst.lookup_append_self hx (g.find id)
      refine ⟨Subst.within_append x _, fun y c hc => ?_, fun y hy => ?_, fun s'' hw => ?_⟩
      · rw [List.lookup_append] at hc
        cases hy : s.lookup y with
        | some c' =>
          rw [hy] at hc
          cases hc
          exact hs y c hy
        | none =>
          rw [hy, Option.none_or, List.lookup_cons] at hc
          split at hc
          · cases hc
            exact EGraph.find_find h.shape id
          · cases hc
      · obtain rfl : y = x := by simpa [vars, varsFrom] using hy
        exact ⟨_, hlookup⟩
      · show id = s''.get x
        rw [Subst.get_eq (hw x _ hlookup), hid]
    · refine ⟨Subst.within_refl _, hs, fun y hy => ?_, fun s'' hw => ?_⟩
      · obtain rfl : y = x := by simpa [vars, varsFrom] using hy
        exact ⟨c, hx⟩
      · show id = s''.get x
        rw [Subst.get_eq (hw x _ hx), ← hs x c hx, hc, hid]
  | leaf l =>
    obtain ⟨rfl, hn⟩ := mem_matchesAt_leaf.1 hs'
    exact ⟨Subst.within_refl _, hs, fun x hx => (by cases hx), fun _ _ => hn⟩
  | unary op p ih =>
    obtain ⟨a, hn, hmem⟩ := mem_matchesAt_unary.1 hs'
    have ha := h.current id _ hn a (by simp [Node.children])
    obtain ⟨hw, hr, hb, hover⟩ := ih ha.2 hs hmem
    exact ⟨hw, hr, hb, fun s'' hw' => ⟨a, hover s'' hw', hn⟩⟩
  | binary op p q ihp ihq =>
    obtain ⟨a, b, hn, s₁, hs₁, hmem⟩ := mem_matchesAt_binary.1 hs'
    have hchild := h.current id _ hn
    obtain ⟨hw₁, hr₁, hb₁, hover₁⟩ := ihp (hchild a (by simp [Node.children])).2 hs hs₁
    obtain ⟨hw, hr, hb, hover⟩ := ihq (hchild b (by simp [Node.children])).2 hr₁ hmem
    refine ⟨hw₁.trans hw, hr, fun x hx => ?_,
      fun s'' hw' => ⟨a, b, hover₁ s'' (hw.trans hw'), hover s'' hw', hn⟩⟩
    rcases mem_vars_binary.1 hx with hx | hx
    · obtain ⟨c, hc⟩ := hb₁ x hx
      exact ⟨c, hw x c hc⟩
    · exact hb x hx

/-- **An occurrence** is matched: the bindings go on from any that agree with it. -/
theorem exists_matchesAt (h : g.Listing) {s : Subst} (hid : g.find id = id)
    (hs : ∀ x c, s.lookup x = some c → c = σ x) (hover : p.Over g.Lists σ id) :
    ∃ s' ∈ p.matchesAt g s id, ∀ x c, s'.lookup x = some c → c = σ x := by
  induction p generalizing s id with
  | hole x =>
    have hx : id = σ x := hover
    cases hlookup : s.lookup x with
    | none =>
      refine ⟨_, mem_matchesAt_hole.2 (.inl ⟨hlookup, rfl⟩), fun y c hc => ?_⟩
      rw [List.lookup_append] at hc
      cases hy : s.lookup y with
      | some c' =>
        rw [hy] at hc
        cases hc
        exact hs y c hy
      | none =>
        rw [hy, Option.none_or, List.lookup_cons] at hc
        split at hc
        · next hyx =>
          cases hc
          rw [hid, eq_of_beq hyx, hx]
        · cases hc
    | some c =>
      refine ⟨s, mem_matchesAt_hole.2 (.inr ⟨c, hlookup, ?_, rfl⟩), hs⟩
      rw [hs x c hlookup, ← hx]
  | leaf l => exact ⟨s, mem_matchesAt_leaf.2 ⟨rfl, hover⟩, hs⟩
  | unary op p ih =>
    obtain ⟨a, ha, hn⟩ := hover
    have hcurrent := h.current id _ hn a (by simp [Node.children])
    obtain ⟨s', hs', hbound⟩ := ih hcurrent.2 hs ha
    exact ⟨s', mem_matchesAt_unary.2 ⟨a, hn, hs'⟩, hbound⟩
  | binary op p q ihp ihq =>
    obtain ⟨a, b, ha, hb, hn⟩ := hover
    have hchild := h.current id _ hn
    obtain ⟨s₁, hs₁, hbound₁⟩ := ihp (hchild a (by simp [Node.children])).2 hs ha
    obtain ⟨s', hs', hbound⟩ := ihq (hchild b (by simp [Node.children])).2 hbound₁ hb
    exact ⟨s', mem_matchesAt_binary.2 ⟨a, b, hn, s₁, hs₁, hs'⟩, hbound⟩

/-- Matching names only classes that nodes are over. -/
theorem matchesAt_inside (h : g.Grounded) {s s' : Subst} (hs : s.Inside g) (hid : id < g.size)
    (hs' : s' ∈ p.matchesAt g s id) : s'.Inside g := by
  induction p generalizing s s' id with
  | hole x =>
    rcases mem_matchesAt_hole.1 hs' with ⟨-, rfl⟩ | ⟨c, -, -, rfl⟩
    · intro b hb
      rcases List.mem_append.1 hb with hb | hb
      · exact hs b hb
      · obtain rfl := List.mem_singleton.1 hb
        exact EGraph.find_lt h.shape hid
    · exact hs
  | leaf l =>
    obtain ⟨rfl, -⟩ := mem_matchesAt_leaf.1 hs'
    exact hs
  | unary op p ih =>
    obtain ⟨a, hn, hmem⟩ := mem_matchesAt_unary.1 hs'
    exact ih hs (h.child_lt id _ hn a (by simp [Node.children])) hmem
  | binary op p q ihp ihq =>
    obtain ⟨a, b, hn, s₁, hs₁, hmem⟩ := mem_matchesAt_binary.1 hs'
    have hchild := h.child_lt id _ hn
    exact ihq (ihp hs (hchild a (by simp [Node.children])) hs₁)
      (hchild b (by simp [Node.children])) hmem

theorem mem_search : m ∈ p.search g ↔
    (∃ c ∈ g.classList, c.id = m.1) ∧ m.2 ∈ Subst.distinct (p.matchesAt g [] m.1) := by
  rw [search, List.mem_flatMap]
  constructor
  · rintro ⟨c, hc, hm⟩
    obtain ⟨s, hs, rfl⟩ := List.mem_map.1 hm
    exact ⟨⟨c, hc, rfl⟩, hs⟩
  · rintro ⟨⟨c, hc, hid⟩, hs⟩
    exact ⟨c, hc, List.mem_map.2 ⟨m.2, by rwa [hid], by rw [hid]⟩⟩

theorem exists_mem_classList (hs : g.Shape) : (∃ c ∈ g.classList, c.id = id) ↔ g.Current id := by
  constructor
  · rintro ⟨c, hc, rfl⟩
    obtain ⟨j, hj⟩ := EGraph.mem_classList.1 hc
    rw [hs.id_eq j c hj]
    exact (hs.stored_iff j).1 ⟨c, hj⟩
  · rintro hid
    obtain ⟨c, hc⟩ := (hs.stored_iff id).2 hid
    exact ⟨c, EGraph.mem_classList.2 ⟨id, hc⟩, hs.id_eq id c hc⟩

/-- **What is found** occurs in the lists, over roots. -/
theorem over_of_mem_search (h : g.Listing) (hm : m ∈ p.search g) :
    g.Current m.1 ∧ (∀ x ∈ p.vars, g.find (m.2.get x) = m.2.get x) ∧
      p.Over g.Lists m.2.get m.1 := by
  obtain ⟨hc, hs⟩ := mem_search.1 hm
  have hid := (exists_mem_classList h.shape).1 hc
  obtain ⟨-, hroot, hbinds, hover⟩ := matchesAt_over h hid.2 (fun x c hx => by cases hx)
    (Subst.mem_of_mem_distinct hs)
  refine ⟨hid, fun x hx => ?_, hover m.2 (Subst.within_refl _)⟩
  obtain ⟨c, hc⟩ := hbinds x hx
  rw [Subst.get_eq hc, hroot x c hc]

/-- **What occurs** in the lists is found. -/
theorem exists_mem_search (h : g.Listing) (hid : g.Current id) (hover : p.Over g.Lists σ id) :
    ∃ m ∈ p.search g, m.1 = id ∧ ∀ x ∈ p.vars, m.2.get x = σ x := by
  obtain ⟨s, hs, hbound⟩ := exists_matchesAt h (s := []) hid.2 (fun x c hx => by cases hx) hover
  have hkept := Subst.mem_distinct (fun s hs => names_of_mem_matchesAt hs) hs
  refine ⟨(id, s), mem_search.2 ⟨(exists_mem_classList h.shape).2 hid, hkept⟩, rfl, fun x hx => ?_⟩
  obtain ⟨-, -, hbinds, -⟩ := matchesAt_over h hid.2 (fun x c hx => by cases hx) hs
  obtain ⟨c, hc⟩ := hbinds x hx
  rw [Subst.get_eq hc, hbound x c hc]

/-- Where the lists of one graph go to those of another, so do the matches. -/
theorem search_map (h : g.Listing) (h' : g'.Listing) {f : ClassId → ClassId}
    (hcurrent : ∀ id, g.Current id → g'.Current (f id))
    (hlists : ∀ n id, g.Lists n id → g'.Lists (n.map f) (f id)) (hm : m ∈ p.search g) :
    ∃ m' ∈ p.search g', m'.1 = f m.1 ∧ ∀ x ∈ p.vars, m'.2.get x = f (m.2.get x) := by
  obtain ⟨hid, -, hover⟩ := over_of_mem_search h hm
  exact exists_mem_search h' (hcurrent _ hid) (hover.map hlists)

end Pattern

end EqSat
