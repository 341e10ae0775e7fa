import EqSat.Proofs.Reentry

/-!
# Surveys

What a second run may enter can be listed, as a graph has finitely many nodes, and so can the
classes of evident constant.  A survey is such a list.  It need not be made with care: whether it is
closed can be checked, and so can whether every right side is there that a left side in it asks for.
A survey that passes these checks clears the graph, which then has missed nothing.

    finds_iff                 where nodes are found is computed
    exists_mem_matchesIn      matches by listed nodes are enumerated
    Clears.nothingMissed      a survey that clears the graph
-/

namespace EqSat

open EGraph

variable {g : EGraph} {n : ENode} {id c : ClassId} {rules : List Rule} {t : Term}
  {σ : String → ClassId} {s : Subst} {x : String} {ns : List Usage}

/-! ## Where nodes are found -/

namespace EGraph

instance : Decidable (g.Current c) := inferInstanceAs (Decidable (_ ∧ _))

/-- The class that the node is found in. -/
def foundAt? (g : EGraph) (n : ENode) : Option ClassId :=
  if ∀ a ∈ n.children, g.Current a then
    (g.lookup n).or ((g.foldNode n).bind fun k => g.lookup (.leaf (.const k)))
  else none

end EGraph

theorem InOrder.finds_iff (h : InOrder g) (n : ENode) (c : ClassId) :
    g.Finds n c ↔ g.foundAt? n = some c := by
  unfold foundAt?
  split
  · next hcurrent =>
    rw [Option.or_eq_some_iff, Option.bind_eq_some_iff]
    refine ⟨fun hc => ?_, fun hc => ⟨hcurrent, hc.imp_right And.right⟩⟩
    rcases hc.2 with hlookup | ⟨k, hk, hlookup⟩
    · exact .inl hlookup
    · cases hnode : g.lookup n with
      | none => exact .inr ⟨rfl, k, hk, hlookup⟩
      | some d =>
        have hd : g.Finds n d := ⟨hcurrent, .inl hnode⟩
        rw [h.reads_finds.unique hc hd]
        exact .inl rfl
  · next hnot => exact iff_of_false (fun hc => hnot hc.1) (by simp)

/-! ## Matches by listed nodes -/

/-- The substitutions extending `s` under which the pattern matches the class by nodes of the
list. -/
def Pattern.matchesIn (ns : List Usage) : Pattern → Subst → ClassId → List Subst
  | hole x, s, id =>
    match s.lookup x with
    | none => [s ++ [(x, id)]]
    | some bound => if bound = id then [s] else []
  | leaf l, s, id => if (.leaf l, id) ∈ ns then [s] else []
  | unary op p, s, id =>
    ns.flatMap fun
      | (.unary op' a, c) => if op' = op ∧ c = id then p.matchesIn ns s a else []
      | _ => []
  | binary op p q, s, id =>
    ns.flatMap fun
      | (.binary op' a b, c) =>
        if op' = op ∧ c = id then (p.matchesIn ns s a).flatMap (q.matchesIn ns · b) else []
      | _ => []

/-- The substitution agrees with the classes that stand for the variables. -/
def Subst.Agrees (s : Subst) (σ : String → ClassId) : Prop := ∀ x c, s.lookup x = some c → c = σ x

theorem Subst.Agrees.append (h : s.Agrees σ) : Subst.Agrees (s ++ [(x, σ x)]) σ := by
  intro y c hc
  rw [List.lookup_append, Option.or_eq_some_iff] at hc
  rcases hc with hc | ⟨-, hc⟩
  · exact h y c hc
  · rw [List.lookup_cons] at hc
    split at hc
    · next heq =>
      rw [eq_of_beq heq]
      exact (Option.some.inj hc).symm
    · cases hc

/-- **All matches** by listed nodes are enumerated. -/
theorem Pattern.exists_mem_matchesIn {p : Pattern} (hs : s.Agrees σ)
    (h : p.Over (fun n c => (n, c) ∈ ns) σ id) :
    ∃ s' ∈ p.matchesIn ns s id, s.Within s' ∧ s'.Agrees σ ∧
      ∀ x ∈ p.vars, s'.lookup x = some (σ x) := by
  induction p generalizing s id with
  | hole x =>
    obtain rfl : id = σ x := h
    have hvars : ∀ y ∈ (hole x).vars, y = x := fun y hy => by simpa [vars, varsFrom] using hy
    rw [matchesIn]
    cases hx : s.lookup x with
    | none =>
      refine ⟨_, List.mem_singleton_self _, Subst.within_append x _, hs.append, fun y hy => ?_⟩
      rw [hvars y hy, Subst.lookup_append_self hx]
    | some bound =>
      obtain rfl := hs x bound hx
      dsimp only
      rw [if_pos rfl]
      refine ⟨s, List.mem_singleton_self s, s.within_refl, hs, fun y hy => ?_⟩
      rw [hvars y hy, hx]
  | leaf l =>
    have hmem : (.leaf l, id) ∈ ns := h
    exact ⟨s, by simp [matchesIn, hmem], s.within_refl, hs, by simp [vars, varsFrom]⟩
  | unary op p ih =>
    obtain ⟨a, ha, hd⟩ := h
    obtain ⟨s', hmem, hs'⟩ := ih hs ha
    refine ⟨s', ?_, hs'⟩
    rw [matchesIn, List.mem_flatMap]
    exact ⟨_, hd, by simpa using hmem⟩
  | binary op p q ihp ihq =>
    obtain ⟨a, b, ha, hb, hd⟩ := h
    obtain ⟨s₁, hmem₁, hwithin₁, hagrees₁, hbinds₁⟩ := ihp hs ha
    obtain ⟨s₂, hmem₂, hwithin₂, hagrees₂, hbinds₂⟩ := ihq hagrees₁ hb
    refine ⟨s₂, ?_, hwithin₁.trans hwithin₂, hagrees₂, fun x hx => ?_⟩
    · rw [matchesIn, List.mem_flatMap]
      refine ⟨_, hd, ?_⟩
      dsimp only
      rw [if_pos ⟨rfl, rfl⟩]
      exact List.mem_flatMap.2 ⟨s₁, hmem₁, hmem₂⟩
    · rcases mem_vars_binary.1 hx with hx | hx
      · exact hwithin₂ x _ (hbinds₁ x hx)
      · exact hbinds₂ x hx

/-- A left side by listed nodes is matched by a substitution that does for the whole rule. -/
theorem Rule.exists_mem_matchesIn {r : Rule} (h : r.lhs.Over (fun n c => (n, c) ∈ ns) σ id) :
    ∃ s ∈ r.lhs.matchesIn ns [] id, (∀ x ∈ r.rhs.vars, σ x = s.get x) ∧
      ∀ guard ∈ r.guard, σ guard.var = s.get guard.var := by
  have hempty : Subst.Agrees [] σ := fun x c hc => by cases hc
  obtain ⟨s, hs, -, -, hbinds⟩ := Pattern.exists_mem_matchesIn hempty h
  refine ⟨s, hs, fun x hx => ?_, fun guard hguard => ?_⟩
  · exact (Subst.get_eq (hbinds x (r.rhs_bound x hx))).symm
  · exact (Subst.get_eq (hbinds _ (r.guard_bound _ (Option.mem_map_of_mem _ hguard)))).symm

/-! ## Checking a survey -/

/-- Nodes that may be entered in classes, the classes of a term's nodes, and classes of evident
constant. -/
structure Survey where
  nodes : List Usage
  places : List ClassId
  evident : List ClassId

namespace Survey

/-- The classes in which nodes are entered. -/
def classesOf (ns : List Usage) : List ClassId := (ns.map Prod.snd).eraseDups

theorem mem_classesOf (h : (n, c) ∈ ns) : c ∈ classesOf ns :=
  List.mem_eraseDups.2 (List.mem_map.2 ⟨_, h, rfl⟩)

/-- What may be listed where it is entered. -/
def sighted (v : Survey) : List Usage :=
  v.nodes.filter fun u => u.1.isLeaf || !v.evident.contains u.2

/-- The class that the node is entered in. -/
def enteredAt? (v : Survey) (g : EGraph) (n : ENode) : Option ClassId :=
  (g.foundAt? n).filter fun c => (n, c) ∈ v.nodes

/-- The survey is closed, its constants are evident, and where it sights a left side, the right side
is found, or the guard refuses for good. -/
structure Clears (v : Survey) (g : EGraph) (rules : List Rule) (t : Term) : Prop where
  found : ∀ u ∈ v.nodes, g.foundAt? u.1 = some u.2
  term : ∀ i, (hi : i < t.nodes.size) →
    (t.nodes[i].map (v.places.getD · 0), v.places.getD i 0) ∈ v.nodes
  fold : ∀ u ∈ v.nodes, ∀ k ∈ g.foldNode u.1, (.leaf (.const k), u.2) ∈ v.nodes
  rule : ∀ id ∈ classesOf v.nodes, ∀ r ∈ rules, ∀ s ∈ r.lhs.matchesIn v.nodes [] id,
    r.rhs.through g.foundAt? s.get = some id → r.rhs.through (v.enteredAt? g) s.get = some id
  evident : ∀ u ∈ v.nodes, u.2 ∈ v.evident →
    (g.foldNode u.1).isSome = true ∧ ∀ a ∈ u.1.children, a ∈ v.evident
  right : ∀ id ∈ classesOf v.nodes, ∀ r ∈ rules, ∀ s ∈ r.lhs.matchesIn v.sighted [] id,
    (∃ guard ∈ r.guard, s.get guard.var ∈ v.evident ∧
      guard.condition.holds g (s.get guard.var) = false) ∨
    r.rhs.through g.foundAt? s.get = some id

instance (v : Survey) (g : EGraph) (rules : List Rule) (t : Term) :
    Decidable (v.Clears g rules t) :=
  decidable_of_iff (_ ∧ _ ∧ _ ∧ _ ∧ _ ∧ _)
    ⟨fun ⟨h₁, h₂, h₃, h₄, h₅, h₆⟩ => ⟨h₁, h₂, h₃, h₄, h₅, h₆⟩,
      fun ⟨h₁, h₂, h₃, h₄, h₅, h₆⟩ => ⟨h₁, h₂, h₃, h₄, h₅, h₆⟩⟩

variable {v : Survey}

namespace Clears

theorem mem_iff (h : v.Clears g rules t) (n : ENode) (c : ClassId) :
    (n, c) ∈ v.nodes ↔ v.enteredAt? g n = some c := by
  rw [enteredAt?, Option.filter_eq_some_iff, decide_eq_true_iff]
  exact ⟨fun hn => ⟨h.found _ hn, hn⟩, And.right⟩

theorem reentry (h : v.Clears g rules t) (hg : InOrder g) :
    g.Reentry rules t fun n c => (n, c) ∈ v.nodes where
  found := fun hn => (hg.finds_iff _ _).2 (h.found _ hn)
  term := by
    have hnodes : ∀ (i : Nat) (n : Node Nat), t.nodes[i]? = some n →
        (n.map (v.places.getD · 0), v.places.getD i 0) ∈ v.nodes := by
      intro i n hn
      obtain ⟨hi, rfl⟩ := Array.getElem?_eq_some_iff.1 hn
      exact h.term i hi
    exact hg.term_of_classes (fun hn => (hg.finds_iff _ _).2 (h.found _ hn)) hnodes
  fold := fun hn hk => h.fold _ hn _ hk
  rule := by
    rintro r σ id hr ⟨n, hn⟩ hleft hright
    obtain ⟨s, hs, hagree, -⟩ := Rule.exists_mem_matchesIn hleft
    rw [Pattern.over_congr hagree] at hright ⊢
    rw [Pattern.over_iff_through hg.finds_iff] at hright
    rw [Pattern.over_iff_through h.mem_iff]
    exact h.rule _ (mem_classesOf hn) r hr s hs hright

theorem evident_of_mem (h : v.Clears g rules t) (hc : c ∈ v.evident) :
    g.Evident (fun n c => (n, c) ∈ v.nodes) c :=
  ⟨(· ∈ v.evident), hc, fun n _ hd hn => h.evident (n, _) hn hd⟩

theorem mem_sighted (h : v.Clears g rules t)
    (hn : g.Sights (fun n c => (n, c) ∈ v.nodes) n c) : (n, c) ∈ v.sighted := by
  refine List.mem_filter.2 ⟨hn.1, ?_⟩
  rw [Bool.or_eq_true, Bool.not_eq_true', List.contains_eq_mem, decide_eq_false_iff_not]
  exact hn.2.imp_right fun hnot hc => hnot (h.evident_of_mem hc)

/-- **A survey that clears** the graph: the graph has missed nothing. -/
theorem nothingMissed (h : v.Clears g rules t) (hg : InOrder g) : g.NothingMissed rules t := by
  refine (h.reentry hg).nothingMissed fun r hr σ id hm => ?_
  obtain ⟨n, hn⟩ := hm.entered
  obtain ⟨s, hs, hagree, hvar⟩ :=
    Rule.exists_mem_matchesIn (hm.sighted.mono fun n c => h.mem_sighted)
  rcases h.right _ (mem_classesOf hn) r hr s hs with ⟨guard, hguard, hevident, hrefuses⟩ | hright
  · rw [← hvar guard hguard] at hevident hrefuses
    have hpasses := hm.passable guard hguard (h.evident_of_mem hevident)
    rw [hrefuses] at hpasses
    cases hpasses
  · rw [Pattern.over_congr hagree, Pattern.over_iff_through hg.finds_iff]
    exact hright

end Clears

/-! ## Making a survey -/

/-- The nodes of the pattern in their classes, where `f` says which these are. -/
def usagesOf (f : ENode → Option ClassId) (σ : String → ClassId) : Pattern → List Usage
  | .hole _ => []
  | .leaf l => (f (.leaf l)).toList.map (.leaf l, ·)
  | .unary op p => usagesOf f σ p ++ (p.through f σ).toList.flatMap fun a =>
    (f (.unary op a)).toList.map (.unary op a, ·)
  | .binary op p q => usagesOf f σ p ++ usagesOf f σ q ++
    (p.through f σ).toList.flatMap fun a => (q.through f σ).toList.flatMap fun b =>
      (f (.binary op a b)).toList.map (.binary op a b, ·)

/-- Enter the right sides that are found where a left side is, and the constants that nodes fold
to. -/
def grow (g : EGraph) (rules : List Rule) (ns : List Usage) : List Usage :=
  let found := (classesOf ns).flatMap fun id => rules.flatMap fun r =>
    (r.lhs.matchesIn ns [] id).flatMap fun s =>
      if r.rhs.through g.foundAt? s.get = some id then usagesOf g.foundAt? s.get r.rhs else []
  let folded := ns.flatMap fun u => (g.foldNode u.1).toList.map fun k => (.leaf (.const k), u.2)
  (ns ++ found ++ folded).eraseDups

/-- Leave out the classes with a node that does not fold, or has a child that is left out. -/
def shrink (g : EGraph) (ns : List Usage) (cs : List ClassId) : List ClassId :=
  cs.filter fun c => ns.all fun u => u.2 != c ||
    ((g.foldNode u.1).isSome && u.1.children.all cs.contains)

/-- Survey what a run on the term may enter, in so many rounds. -/
def make (g : EGraph) (rules : List Rule) (t : Term) (rounds : Nat) : Survey :=
  let places := t.nodes.foldl (fun cs n =>
    cs ++ [(g.foundAt? (n.map (cs.getD · 0))).getD 0]) []
  let start := (t.nodes.toList.map fun n => n.map (places.getD · 0)).zip places
  let nodes := (grow g rules)^[rounds] start
  ⟨nodes, places, (shrink g nodes)^[rounds] (classesOf nodes)⟩

end Survey

end EqSat
