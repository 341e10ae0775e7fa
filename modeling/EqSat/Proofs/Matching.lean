import EqSat.Proofs.EGraph.Rebuild
import EqSat.Rule

/-!
# Matches are instances of equations

A pattern over values for its variables has at most one value in a meaning of nodes.  A class
that a pattern matches has the value of the pattern over the values of the classes bound; a
class that is built from a pattern has it as well.  So a rule that holds in the meaning joins
classes of one value, whenever it is applied: also to a match found in an earlier graph.

    search_spec         a match is an instance of the pattern
    build_spec          what is built has the value of the pattern
    applyMatch_spec     a rule that holds keeps the graph in order
-/

namespace EqSat

variable {D : Type} {I : Meaning D} {g g' : EGraph} {o o' : Origin D}

namespace Pattern

/-- The value of a pattern over values for its variables. -/
def Means (I : Meaning D) (σ : String → D) : Pattern → D → Prop
  | hole x, d => d = σ x
  | leaf l, d => I.Holds (.leaf l) d
  | unary op p, d => ∃ a, p.Means I σ a ∧ I.Holds (.unary op a) d
  | binary op p q, d => ∃ a b, p.Means I σ a ∧ q.Means I σ b ∧ I.Holds (.binary op a b) d

/-- The heads of the nodes of a pattern. -/
def heads : Pattern → List (Node Unit)
  | hole _ => []
  | leaf l => [.leaf l]
  | unary op p => .unary op () :: p.heads
  | binary op p q => .binary op () () :: (p.heads ++ q.heads)

/-! ## Variables -/

theorem mem_varsFrom {p : Pattern} {names : List String} {x : String} :
    x ∈ p.varsFrom names ↔ x ∈ names ∨ x ∈ p.vars := by
  unfold vars
  induction p generalizing names with
  | hole y =>
    by_cases hy : y ∈ names
    · simp only [varsFrom, hy, if_true, List.not_mem_nil, if_false, List.nil_append,
        List.mem_singleton]
      exact ⟨Or.inl, fun h => h.elim id fun e => e ▸ hy⟩
    · simp [varsFrom, hy]
  | leaf l => simp [varsFrom]
  | unary op p ih => exact ih
  | binary op p q ihp ihq =>
    have hq : x ∈ q.varsFrom (p.varsFrom []) ↔ x ∈ p.varsFrom [] ∨ x ∈ q.varsFrom [] := ihq
    simp only [varsFrom]
    rw [ihq, ihp, hq, or_assoc]

theorem mem_vars_binary {op : BinaryOp} {p q : Pattern} {x : String} :
    x ∈ (binary op p q).vars ↔ x ∈ p.vars ∨ x ∈ q.vars := by
  show x ∈ q.varsFrom p.vars ↔ _
  exact mem_varsFrom

/-- The pattern at `d`, where `H` says which nodes are where. -/
def Over (H : Node D → D → Prop) (σ : String → D) : Pattern → D → Prop
  | hole x, d => d = σ x
  | leaf l, d => H (.leaf l) d
  | unary op p, d => ∃ a, Over H σ p a ∧ H (.unary op a) d
  | binary op p q, d => ∃ a b, Over H σ p a ∧ Over H σ q b ∧ H (.binary op a b) d

theorem means_iff_over {σ : String → D} {p : Pattern} {d : D} :
    p.Means I σ d ↔ p.Over I.Holds σ d := by
  induction p generalizing d with
  | hole x => rfl
  | leaf l => rfl
  | unary op p ih => exact exists_congr fun a => and_congr_left fun _ => ih
  | binary op p q ihp ihq =>
    exact exists_congr fun a => exists_congr fun b => and_congr ihp (and_congr_left fun _ => ihq)

/-- Only what stands for the variables that occur matters. -/
theorem over_congr {H : Node D → D → Prop} {σ τ : String → D} {p : Pattern}
    (h : ∀ x ∈ p.vars, σ x = τ x) {d : D} : p.Over H σ d ↔ p.Over H τ d := by
  induction p generalizing d with
  | hole x => rw [Over, Over, h x (by simp [vars, varsFrom])]
  | leaf l => rfl
  | unary op p ih => exact exists_congr fun a => and_congr_left fun _ => ih h
  | binary op p q ihp ihq =>
    refine exists_congr fun a => exists_congr fun b => and_congr ?_ (and_congr_left fun _ => ?_)
    · exact ihp fun x hx => h x (mem_vars_binary.2 (Or.inl hx))
    · exact ihq fun x hx => h x (mem_vars_binary.2 (Or.inr hx))

/-- Where nodes go, patterns go. -/
theorem Over.map {E : Type} {H : Node D → D → Prop} {K : Node E → E → Prop} {f : D → E}
    (hf : ∀ n d, H n d → K (n.map f) (f d)) {σ : String → D} {p : Pattern} {d : D}
    (h : p.Over H σ d) : p.Over K (f ∘ σ) (f d) := by
  induction p generalizing d with
  | hole x => exact congrArg f h
  | leaf l => exact hf _ _ h
  | unary op p ih =>
    obtain ⟨a, ha, hd⟩ := h
    exact ⟨f a, ih ha, hf _ _ hd⟩
  | binary op p q ihp ihq =>
    obtain ⟨a, b, ha, hb, hd⟩ := h
    exact ⟨f a, f b, ihp ha, ihq hb, hf _ _ hd⟩

theorem Over.mono {H K : Node D → D → Prop} (hHK : ∀ n d, H n d → K n d) {σ : String → D}
    {p : Pattern} {d : D} (h : p.Over H σ d) : p.Over K σ d :=
  h.map (f := id) fun n d hn => by
    rw [Node.map_id]
    exact hHK n d hn

/-- Where nodes have one place, patterns have. -/
theorem Over.unique {H : Node D → D → Prop} (hH : ∀ {n d e}, H n d → H n e → d = e)
    {σ : String → D} {p : Pattern} {d e : D} (hd : p.Over H σ d) (he : p.Over H σ e) : d = e := by
  induction p generalizing d e with
  | hole x => exact hd.trans he.symm
  | leaf l => exact hH hd he
  | unary op p ih =>
    obtain ⟨a, ha, hd⟩ := hd
    obtain ⟨b, hb, he⟩ := he
    obtain rfl := ih ha hb
    exact hH hd he
  | binary op p q ihp ihq =>
    obtain ⟨a, b, ha, hb, hd⟩ := hd
    obtain ⟨a', b', ha', hb', he⟩ := he
    obtain rfl := ihp ha ha'
    obtain rfl := ihq hb hb'
    exact hH hd he

/-- Only the values of the variables that occur matter. -/
theorem means_congr {σ τ : String → D} {p : Pattern} (h : ∀ x ∈ p.vars, σ x = τ x) {d : D} :
    p.Means I σ d ↔ p.Means I τ d := by
  rw [means_iff_over, means_iff_over, over_congr h]

/-- The value of a pattern, where `f` gives nodes their values. -/
def through (f : Node D → Option D) (σ : String → D) : Pattern → Option D
  | hole x => some (σ x)
  | leaf l => f (.leaf l)
  | unary op p => (through f σ p).bind fun a => f (.unary op a)
  | binary op p q => (through f σ p).bind fun a => (through f σ q).bind fun b => f (.binary op a b)

theorem over_iff_through {H : Node D → D → Prop} {f : Node D → Option D}
    (hf : ∀ n d, H n d ↔ f n = some d) {σ : String → D} {p : Pattern} {d : D} :
    p.Over H σ d ↔ p.through f σ = some d := by
  induction p generalizing d with
  | hole x => rw [Over, through, Option.some.injEq, eq_comm]
  | leaf l => exact hf _ _
  | unary op p ih =>
    rw [through, Option.bind_eq_some_iff]
    exact exists_congr fun a => and_congr ih (hf _ _)
  | binary op p q ihp ihq =>
    rw [through, Option.bind_eq_some_iff]
    refine exists_congr fun a => ?_
    rw [Option.bind_eq_some_iff, ← ihp, ← exists_and_left]
    exact exists_congr fun b => and_congr_right fun _ => and_congr ihq (hf _ _)

theorem means_iff_through {f : Node D → Option D} (hf : ∀ n d, I.Holds n d ↔ f n = some d)
    {σ : String → D} {p : Pattern} {d : D} : p.Means I σ d ↔ p.through f σ = some d :=
  means_iff_over.trans (over_iff_through hf)

/-- Only the values of nodes with the heads of the pattern matter. -/
theorem through_congr {f f' : Node D → Option D} {σ : String → D} {p : Pattern}
    (h : ∀ n, n.outline ∈ p.heads → f n = f' n) : p.through f σ = p.through f' σ := by
  induction p with
  | hole x => rfl
  | leaf l => exact h _ List.mem_cons_self
  | unary op p ih =>
    rw [through, through, ih fun n hn => h n (List.mem_cons_of_mem _ hn)]
    exact Option.bind_congr fun a _ => h _ List.mem_cons_self
  | binary op p q ihp ihq =>
    rw [through, through,
      ihp fun n hn => h n (List.mem_cons_of_mem _ (List.mem_append.2 (.inl hn))),
      ihq fun n hn => h n (List.mem_cons_of_mem _ (List.mem_append.2 (.inr hn)))]
    exact Option.bind_congr fun a _ => Option.bind_congr fun b _ => h _ List.mem_cons_self

end Pattern

/-- The rule is an equation of the meaning, whatever its guard. -/
def Rule.Holds (I : Meaning D) (r : Rule) : Prop :=
  ∀ σ d, r.lhs.Means I σ d → r.rhs.Means I σ d

/-! ## Matching -/

namespace Subst

/-- Every variable of `s` has the same class in `s'`. -/
def Within (s s' : Subst) : Prop := ∀ x c, s.lookup x = some c → s'.lookup x = some c

theorem within_refl (s : Subst) : s.Within s := fun _ _ h => h

theorem Within.trans {s s' s'' : Subst} (h : s.Within s') (h' : s'.Within s'') : s.Within s'' :=
  fun x c hc => h' x c (h x c hc)

theorem within_append {s : Subst} (x : String) (c : ClassId) : s.Within (s ++ [(x, c)]) := by
  intro y d hd
  rw [List.lookup_append, hd]
  rfl

theorem lookup_append_self {s : Subst} {x : String} (hx : s.lookup x = none) (c : ClassId) :
    (s ++ [(x, c)]).lookup x = some c := by
  rw [List.lookup_append, hx]
  simp

theorem get_eq {s : Subst} {x : String} {c : ClassId} (h : s.lookup x = some c) : s.get x = c := by
  rw [get, h]
  rfl

/-- The substitution binds `x` to a class of the graph. -/
def Binds (g : EGraph) (s : Subst) (x : String) : Prop := ∃ c, s.lookup x = some c ∧ c < g.size

theorem Binds.within {s s' : Subst} {x : String} (h : s.Binds g x) (hs : s.Within s') :
    s'.Binds g x := by
  obtain ⟨c, hc, hlt⟩ := h
  exact ⟨c, hs x c hc, hlt⟩

theorem Binds.mono {s : Subst} {x : String} (h : s.Binds g x) (hle : g.size ≤ g'.size) :
    s.Binds g' x := by
  obtain ⟨c, hc, hlt⟩ := h
  exact ⟨c, hc, Nat.lt_of_lt_of_le hlt hle⟩

/-! ### Leaving out duplicates -/

/-- Keep the substitution, unless its classes have been seen. -/
def keepNew (acc : Std.TreeSet (List ClassId) × List Subst) (s : Subst) :
    Std.TreeSet (List ClassId) × List Subst :=
  if acc.1.contains (s.map Prod.snd) then acc
  else (acc.1.insert (s.map Prod.snd), s :: acc.2)

/-- Substitutions picked from a list: one for all that name the same classes, which have been
seen. -/
structure Picks (ss : List Subst) (acc : Std.TreeSet (List ClassId) × List Subst) : Prop where
  seen : ∀ cs, acc.1.contains cs = true ↔ ∃ s ∈ acc.2, s.map Prod.snd = cs
  mem : ∀ s ∈ acc.2, s ∈ ss
  covers : ∀ s ∈ ss, ∃ s' ∈ acc.2, s'.map Prod.snd = s.map Prod.snd
  nodup : (acc.2.map (List.map Prod.snd)).Nodup

theorem picks_nil : Picks [] (∅, []) where
  seen := by simp
  mem := List.forall_mem_nil _
  covers := List.forall_mem_nil _
  nodup := List.nodup_nil

theorem Picks.keepNew {ss : List Subst} {acc : Std.TreeSet (List ClassId) × List Subst}
    (h : Picks ss acc) (s : Subst) : Picks (ss ++ [s]) (keepNew acc s) := by
  rw [Subst.keepNew]
  split
  · next hseen =>
    refine ⟨h.seen, fun s' hs' => List.mem_append_left _ (h.mem s' hs'), fun s' hs' => ?_, h.nodup⟩
    rcases List.mem_append.1 hs' with hs' | hs'
    · exact h.covers s' hs'
    · rw [List.mem_singleton.1 hs']
      exact (h.seen _).1 hseen
  · next hnew =>
    refine ⟨fun cs => ?_, fun s' hs' => ?_, fun s' hs' => ?_, ?_⟩
    · rw [Std.TreeSet.contains_insert, Bool.or_eq_true, beq_iff_eq,
        Std.LawfulEqCmp.compare_eq_iff_eq, h.seen, List.exists_mem_cons_iff]
    · rcases List.mem_cons.1 hs' with rfl | hs'
      · exact List.mem_append_right _ List.mem_cons_self
      · exact List.mem_append_left _ (h.mem s' hs')
    · rcases List.mem_append.1 hs' with hs' | hs'
      · obtain ⟨s'', hs'', heq⟩ := h.covers s' hs'
        exact ⟨s'', List.mem_cons_of_mem _ hs'', heq⟩
      · exact ⟨s, List.mem_cons_self, by rw [List.mem_singleton.1 hs']⟩
    · refine List.nodup_cons.2 ⟨fun hmem => hnew ?_, h.nodup⟩
      exact (h.seen _).2 (List.mem_map.1 hmem)

theorem picks_foldl (ts : List Subst) {ss : List Subst}
    {acc : Std.TreeSet (List ClassId) × List Subst} (h : Picks ss acc) :
    Picks (ss ++ ts) (ts.foldl Subst.keepNew acc) := by
  induction ts generalizing ss acc with
  | nil => rwa [List.append_nil]
  | cons t ts ih =>
    have hts := ih (h.keepNew t)
    rwa [List.append_assoc, List.singleton_append] at hts

theorem picks_distinct (ss : List Subst) : Picks ss (ss.foldl Subst.keepNew (∅, [])) :=
  picks_foldl ss picks_nil

theorem distinct_eq (ss : List Subst) :
    distinct ss = (ss.foldl Subst.keepNew (∅, [])).2.reverse := rfl

theorem mem_of_mem_distinct {ss : List Subst} {s : Subst} (h : s ∈ distinct ss) : s ∈ ss := by
  rw [distinct_eq, List.mem_reverse] at h
  exact (picks_distinct ss).mem s h

/-- The classes of a substitution that is left out are those of one that is kept. -/
theorem exists_mem_distinct {ss : List Subst} {s : Subst} (h : s ∈ ss) :
    ∃ s' ∈ distinct ss, s'.map Prod.snd = s.map Prod.snd := by
  obtain ⟨s', hs', heq⟩ := (picks_distinct ss).covers s h
  exact ⟨s', by rwa [distinct_eq, List.mem_reverse], heq⟩

theorem nodup_distinct (ss : List Subst) : (distinct ss).Nodup := by
  rw [distinct_eq, List.nodup_reverse]
  exact (picks_distinct ss).nodup.of_map

end Subst

/-- A match of `p` in the class of `id` that goes on from `s`. -/
structure Pattern.Matched (I : Meaning D) (g : EGraph) (o : Origin D) (p : Pattern) (s : Subst)
    (id : ClassId) (s' : Subst) : Prop where
  within : s.Within s'
  lt : ∀ x c, s'.lookup x = some c → c < g.size
  binds : ∀ x ∈ p.vars, s'.Binds g x
  means : ∀ s'', s'.Within s'' → p.Means I (fun x => o.value (s''.get x)) (o.value id)

namespace Pattern

/-- The nodes listed in the class of an id stand there. -/
theorem stands_of_mem_nodesAt (h : EGraph.Lawful I g o) {id : ClassId} {n : ENode}
    (hn : n ∈ g.nodesAt id) : g.Stands o (n, id) := by
  unfold EGraph.nodesAt at hn
  split at hn
  · next c hc =>
    have hstands := h.founded.nodes _ c hc n (Array.mem_toList_iff.1 hn)
    exact hstands.of_same ⟨rfl, (EGraph.find_find h.shape id).symm⟩
  · cases hn

theorem mem_matchesAt_leaf {l : Leaf} {s s' : Subst} {id : ClassId} :
    s' ∈ (leaf l).matchesAt g s id ↔ s' = s ∧ .leaf l ∈ g.nodesAt id := by
  rw [matchesAt, List.mem_flatMap]
  constructor
  · rintro ⟨n, hn, hmem⟩
    cases n with
    | leaf l' =>
      dsimp only at hmem
      split at hmem
      · next heq => exact ⟨List.mem_singleton.1 hmem, heq ▸ hn⟩
      · cases hmem
    | unary op a => cases hmem
    | binary op a b => cases hmem
  · rintro ⟨rfl, hn⟩
    exact ⟨_, hn, by simp⟩

theorem mem_matchesAt_unary {op : UnaryOp} {p : Pattern} {s s' : Subst} {id : ClassId} :
    s' ∈ (unary op p).matchesAt g s id ↔
      ∃ a, .unary op a ∈ g.nodesAt id ∧ s' ∈ p.matchesAt g s a := by
  rw [matchesAt, List.mem_flatMap]
  constructor
  · rintro ⟨n, hn, hmem⟩
    cases n with
    | leaf l => cases hmem
    | unary op' a =>
      dsimp only at hmem
      split at hmem
      · next heq => exact ⟨a, heq ▸ hn, hmem⟩
      · cases hmem
    | binary op' a b => cases hmem
  · rintro ⟨a, hn, hmem⟩
    exact ⟨_, hn, by simpa using hmem⟩

theorem mem_matchesAt_binary {op : BinaryOp} {p q : Pattern} {s s' : Subst} {id : ClassId} :
    s' ∈ (binary op p q).matchesAt g s id ↔ ∃ a b, .binary op a b ∈ g.nodesAt id ∧
      ∃ s₁ ∈ p.matchesAt g s a, s' ∈ q.matchesAt g s₁ b := by
  rw [matchesAt, List.mem_flatMap]
  constructor
  · rintro ⟨n, hn, hmem⟩
    cases n with
    | leaf l => cases hmem
    | unary op' a => cases hmem
    | binary op' a b =>
      dsimp only at hmem
      split at hmem
      · next heq => exact ⟨a, b, heq ▸ hn, List.mem_flatMap.1 hmem⟩
      · cases hmem
  · rintro ⟨a, b, hn, hmem⟩
    exact ⟨_, hn, by simpa using hmem⟩

/-- A hole that is bound matches the class it is bound to; an unbound one gets bound. -/
theorem mem_matchesAt_hole {x : String} {s s' : Subst} {id : ClassId} :
    s' ∈ (hole x).matchesAt g s id ↔
      (s.lookup x = none ∧ s' = s ++ [(x, g.find id)]) ∨
      ∃ c, s.lookup x = some c ∧ g.find c = g.find id ∧ s' = s := by
  rw [matchesAt]
  cases s.lookup x with
  | none => simp
  | some c =>
    by_cases hc : g.find c = g.find id
    · simp [hc]
    · simp [hc]

/-- Binding a hole is a match. -/
theorem matched_bind (h : EGraph.Lawful I g o) {x : String} {s : Subst} {id : ClassId}
    (hs : ∀ x c, s.lookup x = some c → c < g.size) (hid : id < g.size)
    (hx : s.lookup x = none) : (hole x).Matched I g o s id (s ++ [(x, g.find id)]) := by
  have hlookup := Subst.lookup_append_self hx (g.find id)
  have hlt := EGraph.find_lt h.shape hid
  refine ⟨Subst.within_append x _, ?_, ?_, ?_⟩
  · intro y c hc
    rw [List.lookup_append] at hc
    cases hy : s.lookup y with
    | some c' =>
      rw [hy] at hc
      cases hc
      exact hs y c hy
    | none =>
      rw [hy, Option.none_or, List.lookup_cons] at hc
      split at hc
      · cases hc
        exact hlt
      · cases hc
  · intro y hy
    obtain rfl : y = x := by simpa [vars, varsFrom] using hy
    exact ⟨_, hlookup, hlt⟩
  · intro s'' hw
    show o.value id = o.value (s''.get x)
    rw [Subst.get_eq (hw x _ hlookup), h.sound.value_find id hid]

theorem matched_bound (h : EGraph.Lawful I g o) {x : String} {s : Subst} {id c : ClassId}
    (hs : ∀ x c, s.lookup x = some c → c < g.size) (hid : id < g.size)
    (hx : s.lookup x = some c) (hc : g.find c = g.find id) : (hole x).Matched I g o s id s := by
  refine ⟨Subst.within_refl _, hs, ?_, ?_⟩
  · intro y hy
    obtain rfl : y = x := by simpa [vars, varsFrom] using hy
    exact ⟨c, hx, hs _ _ hx⟩
  · intro s'' hw
    show o.value id = o.value (s''.get x)
    rw [Subst.get_eq (hw x _ hx), h.sound.value_eq (hs _ _ hx) hid hc]

/-- **Matching** finds the values of the variables: under them the pattern has the value of
the class. -/
theorem matchesAt_spec (h : EGraph.Lawful I g o) (p : Pattern) {s s' : Subst} {id : ClassId}
    (hs : ∀ x c, s.lookup x = some c → c < g.size) (hid : id < g.size)
    (hs' : s' ∈ p.matchesAt g s id) : p.Matched I g o s id s' := by
  induction p generalizing s s' id with
  | hole x =>
    rcases mem_matchesAt_hole.1 hs' with ⟨hx, rfl⟩ | ⟨c, hx, hc, rfl⟩
    · exact matched_bind h hs hid hx
    · exact matched_bound h hs hid hx hc
  | leaf l =>
    obtain ⟨rfl, hn⟩ := mem_matchesAt_leaf.1 hs'
    have hholds := h.holds (stands_of_mem_nodesAt h hn)
    exact ⟨Subst.within_refl _, hs, fun x hx => (by cases hx), fun _ _ => hholds⟩
  | unary op p ih =>
    obtain ⟨a, hn, hmem⟩ := mem_matchesAt_unary.1 hs'
    have hstands := stands_of_mem_nodesAt h hn
    have hchild := hstands.child_lt h.shape h.founded
    have hm := ih hs (hchild a (by simp [Node.children])) hmem
    exact ⟨hm.within, hm.lt, hm.binds, fun s'' hw => ⟨_, hm.means s'' hw, h.holds hstands⟩⟩
  | binary op p q ihp ihq =>
    obtain ⟨a, b, hn, s₁, hs₁, hmem⟩ := mem_matchesAt_binary.1 hs'
    have hstands := stands_of_mem_nodesAt h hn
    have hchild := hstands.child_lt h.shape h.founded
    have hp := ihp hs (hchild a (by simp [Node.children])) hs₁
    have hq := ihq hp.lt (hchild b (by simp [Node.children])) hmem
    refine ⟨hp.within.trans hq.within, hq.lt, ?_, ?_⟩
    · intro x hx
      rcases mem_vars_binary.1 hx with hx | hx
      · exact (hp.binds x hx).within hq.within
      · exact hq.binds x hx
    · exact fun s'' hw =>
        ⟨_, _, hp.means s'' (hq.within.trans hw), hq.means s'' hw, h.holds hstands⟩

/-- What a pattern means is the same in later graphs. -/
theorem means_later {p : Pattern} {s : Subst} {d : D} {new : ENode → Prop}
    (hs : ∀ x ∈ p.vars, s.Binds g x) (h : p.Means I (fun x => o.value (s.get x)) d)
    (hext : EGraph.Extends new g o g' o') : p.Means I (fun x => o'.value (s.get x)) d := by
  refine (means_congr fun x hx => ?_).1 h
  obtain ⟨c, hc, hlt⟩ := hs x hx
  rw [Subst.get_eq hc, hext.value c hlt]

/-- A class and a substitution under which the pattern has the value of the class. -/
structure Instance (I : Meaning D) (g : EGraph) (o : Origin D) (p : Pattern) (m : Match) :
    Prop where
  lt : m.1 < g.size
  binds : ∀ x ∈ p.vars, m.2.Binds g x
  hole : ∀ x, p = hole x → g.find (m.2.get x) = g.find m.1
  means : p.Means I (fun x => o.value (m.2.get x)) (o.value m.1)

/-- **A match** is an instance of the pattern. -/
theorem search_spec (h : EGraph.Lawful I g o) {p : Pattern} {m : Match} (hm : m ∈ p.search g) :
    p.Instance I g o m := by
  obtain ⟨c, hc, hm⟩ := List.mem_flatMap.1 hm
  obtain ⟨s, hs, rfl⟩ := List.mem_map.1 hm
  obtain ⟨id, hid⟩ := EGraph.mem_classList.1 hc
  have hlt : c.id < g.size := by
    rw [h.shape.id_eq id c hid]
    exact EGraph.lt_of_stored h.shape hid
  have hmatch := matchesAt_spec h p (fun x c hc => by cases hc) hlt (Subst.mem_of_mem_distinct hs)
  refine ⟨hlt, hmatch.binds, ?_, hmatch.means s (Subst.within_refl s)⟩
  rintro x rfl
  obtain rfl := List.mem_singleton.1 (Subst.mem_of_mem_distinct hs)
  show g.find (Subst.get [(x, g.find c.id)] x) = g.find c.id
  rw [Subst.get_eq (c := g.find c.id) (by simp), EGraph.find_find h.shape]

/-- A match stays an instance when the graph changes. -/
theorem Instance.later {p : Pattern} {m : Match} {new : ENode → Prop} (h : p.Instance I g o m)
    (hext : EGraph.Extends new g o g' o') : p.Instance I g' o' m where
  lt := Nat.lt_of_lt_of_le h.lt hext.size_le
  binds := fun x hx => (h.binds x hx).mono hext.size_le
  hole := fun x hx => hext.find _ _ (h.hole x hx)
  means := by
    rw [hext.value _ h.lt]
    exact means_later h.binds h.means hext

/-! ## Values of one kind -/

end Pattern

/-- Where a node has a value of the kind, its parts have. -/
def Meaning.Inherits (I : Meaning D) (V : D → Prop) : Prop :=
  ∀ n d, I.Holds n d → V d → ∀ a ∈ n.children, V a

namespace EGraph

variable {V : D → Prop}

/-- All classes have values of the kind. -/
def Confined (g : EGraph) (V : D → Prop) (o : Origin D) : Prop := ∀ i, i < g.size → V (o.value i)

/-- Leaves of constants are in classes of old. -/
theorem Extends.confined (hext : Extends (fun _ => False) g o g' o') (hsound : g'.Sound I o')
    (h : g.Confined V o) : g'.Confined V o' := by
  intro i hi
  obtain ⟨j, hj, hij⟩ := hext.near (fun _ => not_false) i hi
  rw [hsound.value_eq hi (Nat.lt_of_lt_of_le hj hext.size_le) hij, hext.value j hj]
  exact h j hj

theorem Added.confined {n : ENode} {d : D} {id : ClassId} (ha : Added I g o n d id g' o')
    (h : g.Confined V o) (hd : V d) : g'.Confined V o' := by
  intro i hi
  obtain ⟨j, hj | rfl, hij⟩ := ha.near i hi
  · rw [ha.valid.sound.value_eq hi (Nat.lt_of_lt_of_le hj ha.extended.size_le) hij,
      ha.extended.value j hj]
    exact h j hj
  · rw [ha.valid.sound.value_eq hi ha.lt hij, ha.value]
    exact hd

/-- A node that has been added stands in its class as it is called now. -/
theorem Added.stands_find {n : ENode} {d : D} {id : ClassId} (ha : Added I g o n d id g' o') :
    g'.Stands o' (n.map g'.find, g'.find id) :=
  ha.stands.of_same
    ⟨canonicalize_canonicalize ha.valid.shape n, find_find ha.valid.shape id⟩

end EGraph

namespace Pattern

/-! ## Building -/

/-- The node has a head of the pattern. -/
def Builds (p : Pattern) (n : ENode) : Prop := n.outline ∈ p.heads

theorem builds_canonicalize {p : Pattern} {n : ENode} :
    p.Builds (g.canonicalize n) ↔ p.Builds n := by
  rw [Builds, Builds, EGraph.canonicalize, Node.outline_map]

/-- The nodes of the pattern stand in the graph: the last of them in the class of `id`. -/
def Entered (g : EGraph) (o : Origin D) (p : Pattern) (s : Subst) (id : ClassId) : Prop :=
  p.Over (fun n c => g.Stands o (n, c)) (fun x => g.find (s.get x)) (g.find id)

/-- What stands in a graph stands in later ones. -/
theorem Entered.later {p : Pattern} {s : Subst} {id : ClassId} {new : ENode → Prop}
    (h : p.Entered g o s id) (hs : g.Shape) (hs' : g'.Shape)
    (hext : EGraph.Extends new g o g' o') : p.Entered g' o' s id := by
  have hfind : ∀ a, g'.find (g.find a) = g'.find a := fun a =>
    hext.find _ _ (EGraph.find_find hs a)
  have hmap := Over.map (f := g'.find) (K := fun n c => g'.Stands o' (n, c))
    (fun n c (hn : g.Stands o (n, c)) => (hext.stands hn).of_same
      ⟨EGraph.canonicalize_canonicalize hs' n, EGraph.find_find hs' c⟩) h
  rw [hfind] at hmap
  exact (over_congr fun x _ => hfind (s.get x)).1 hmap

/-- What a pattern has become in a later graph: a class of its value, where its nodes stand.  The
classes have no values of another kind than before, if parts have the kind of what they are of. -/
structure Built (I : Meaning D) (g : EGraph) (o : Origin D) (p : Pattern) (s : Subst) (d : D)
    (id : ClassId) (g' : EGraph) (o' : Origin D) : Prop where
  valid : EGraph.Valid I g' o'
  extended : EGraph.Extends p.Builds g o g' o'
  lt : id < g'.size
  value : o'.value id = d
  entered : p.Entered g' o' s id
  confined : ∀ V, I.Inherits V → V d → g.Confined V o → g'.Confined V o'

/-- What has been built is there in a later graph. -/
theorem Built.later {p : Pattern} {s : Subst} {d : D} {id : ClassId} {g₁ : EGraph} {o₁ : Origin D}
    {new : ENode → Prop} (h : Built I g o p s d id g₁ o₁) (hs : g'.Shape)
    (hext : EGraph.Extends new g₁ o₁ g' o') : p.Entered g' o' s id :=
  h.entered.later h.valid.shape hs hext

/-- Adding a node on top of what has been built. -/
theorem built_add {p q : Pattern} {s : Subst} {n : ENode} {d : D} {g₀ : EGraph} {o₀ : Origin D}
    (hext : EGraph.Extends p.Builds g₀ o₀ g o) (hpq : ∀ n, p.Builds n → q.Builds n)
    (hq : q.Builds n) (h : EGraph.Valid I g o) (hn : ∀ a ∈ n.children, a < g.size)
    (hd : I.Holds (n.map o.value) d)
    (hconfined : ∀ V, I.Inherits V → V d → g₀.Confined V o₀ → g.Confined V o)
    (hentered : ∀ id g' o', EGraph.Added I g o n d id g' o' → q.Entered g' o' s id) :
    ∃ id g' o', EGraph.add n g = .ok id g' ∧ Built I g₀ o₀ q s d id g' o' := by
  obtain ⟨id, g', o', hrun, ha⟩ := EGraph.add_spec h hn hd
  refine ⟨id, g', o', hrun, ha.valid, (hext.mono hpq).trans (ha.extended.mono ?_), ha.lt, ha.value,
    hentered id g' o' ha, fun V hV hVd h₀ => ha.confined (hconfined V hV hVd h₀) hVd⟩
  rintro m rfl
  exact builds_canonicalize.2 hq

/-- **Building** a pattern that has a value gives a class of that value. -/
theorem build_spec (h : EGraph.Valid I g o) {p : Pattern} {s : Subst} {d : D}
    (hs : ∀ x ∈ p.vars, s.Binds g x) (hd : p.Means I (fun x => o.value (s.get x)) d) :
    ∃ id g' o', p.build s g = .ok id g' ∧ Built I g o p s d id g' o' := by
  induction p generalizing g o d with
  | hole x =>
    obtain ⟨c, hc, hlt⟩ := hs x (by simp [vars, varsFrom])
    have hget := Subst.get_eq hc
    refine ⟨g.find (s.get x), g, o, rfl, h, .refl, ?_, ?_, ?_, fun V _ _ h₀ => h₀⟩
    · rw [hget]
      exact EGraph.find_lt h.shape hlt
    · have hd' : d = o.value (s.get x) := hd
      rw [hd', hget, h.sound.value_find c hlt]
    · exact EGraph.find_find h.shape _
  | leaf l =>
    exact built_add .refl (fun _ hn => hn) (by simp [Builds, heads, Node.outline, Node.map]) h
      (by simp [Node.children]) hd (fun V _ _ h₀ => h₀) fun id g' o' ha => ha.stands_find
  | unary op p ih =>
    obtain ⟨a, ha, hd⟩ := hd
    obtain ⟨id, g₁, o₁, hrun, hb⟩ := ih h hs ha
    have hnext : (unary op p).build s g = (p.build s >>= fun a => EGraph.add (.unary op a)) g := rfl
    rw [hnext, EGraph.bind_ok hrun]
    have hholds : I.Holds ((Node.unary op id).map o₁.value) d := by
      show I.Holds (.unary op (o₁.value id)) d
      rwa [hb.value]
    refine built_add hb.extended (fun _ hn => List.mem_cons_of_mem _ hn) List.mem_cons_self hb.valid
      (by simpa [Node.children] using hb.lt) hholds (fun V hV hVd => ?_) fun c g' o' ha => ?_
    · exact hb.confined V hV (hV _ _ hd hVd a (by simp [Node.children]))
    · exact ⟨_, hb.later ha.valid.shape ha.extended, ha.stands_find⟩
  | binary op p q ihp ihq =>
    obtain ⟨a, b, ha, hb, hd⟩ := hd
    obtain ⟨i, g₁, o₁, hrun, hp⟩ := ihp h (fun x hx => hs x (mem_vars_binary.2 (Or.inl hx))) ha
    have hsq : ∀ x ∈ q.vars, s.Binds g x := fun x hx => hs x (mem_vars_binary.2 (Or.inr hx))
    obtain ⟨j, g₂, o₂, hrun', hq⟩ := ihq hp.valid
      (fun x hx => (hsq x hx).mono hp.extended.size_le) (means_later hsq hb hp.extended)
    have hnext : (binary op p q).build s g = (p.build s >>= fun a => q.build s >>= fun b =>
        EGraph.add (.binary op a b)) g := rfl
    rw [hnext, EGraph.bind_ok hrun, EGraph.bind_ok hrun']
    have hext : EGraph.Extends (binary op p q).Builds g o g₂ o₂ :=
      (hp.extended.mono fun _ hn => List.mem_cons_of_mem _ (List.mem_append_left _ hn)).trans
        (hq.extended.mono fun _ hn => List.mem_cons_of_mem _ (List.mem_append_right _ hn))
    refine built_add hext (fun _ hn => hn) List.mem_cons_self hq.valid ?_ ?_ ?_ ?_
    · intro c hc
      rcases List.mem_cons.1 hc with rfl | hc
      · exact Nat.lt_of_lt_of_le hp.lt hq.extended.size_le
      · obtain rfl := List.mem_singleton.1 hc
        exact hq.lt
    · show I.Holds (.binary op (o₂.value i) (o₂.value j)) d
      rw [hq.value, hq.extended.value i hp.lt, hp.value]
      exact hd
    · intro V hV hVd h₀
      have hchild := hV _ _ hd hVd
      exact hq.confined V hV (hchild b (by simp [Node.children]))
        (hp.confined V hV (hchild a (by simp [Node.children])) h₀)
    · intro c g' o' ha
      have hlater : EGraph.Extends (fun _ => True) g₁ o₁ g' o' :=
        (hq.extended.mono fun _ _ => trivial).trans (ha.extended.mono fun _ _ => trivial)
      exact ⟨_, _, hp.later ha.valid.shape hlater, hq.later ha.valid.shape ha.extended,
        ha.stands_find⟩

end Pattern

/-! ## Applying a rule -/

theorem Rule.applyMatch_eq (r : Rule) (m : Match) (g : EGraph) : r.applyMatch m g =
    if r.guard.all (·.passes g m.2) then (r.rhs.build m.2 >>= fun b => EGraph.union m.1 b) g
    else .ok false g := by
  show (if r.guard.all (·.passes g m.2) then do
      let built ← r.rhs.build m.2
      EGraph.union m.1 built
    else return false : Update Bool) g = _
  split <;> rfl

/-- The right side of the rule has the value of the class, over the values of the classes bound. -/
structure Rule.Justified (I : Meaning D) (g : EGraph) (o : Origin D) (r : Rule) (m : Match) :
    Prop where
  lt : m.1 < g.size
  binds : ∀ x ∈ r.rhs.vars, m.2.Binds g x
  means : r.rhs.Means I (fun x => o.value (m.2.get x)) (o.value m.1)

/-- A match stays justified when the graph changes. -/
theorem Rule.Justified.later {r : Rule} {m : Match} {new : ENode → Prop}
    (h : r.Justified I g o m) (hext : EGraph.Extends new g o g' o') : r.Justified I g' o' m where
  lt := Nat.lt_of_lt_of_le h.lt hext.size_le
  binds := fun x hx => (h.binds x hx).mono hext.size_le
  means := by
    rw [hext.value _ h.lt]
    exact Pattern.means_later h.binds h.means hext

/-- What justified steps make of a graph. -/
structure EGraph.Enlarged (I : Meaning D) (new : ENode → Prop) (g : EGraph) (o : Origin D)
    (g' : EGraph) (o' : Origin D) : Prop where
  valid : Valid I g' o'
  extended : Extends new g o g' o'
  confined : ∀ V, I.Inherits V → g.Confined V o → g'.Confined V o'

/-- **Applying a rule** to a match that is justified makes the right side stand in the class of the
match, if no guard refuses, or ends with a clash. -/
theorem Rule.applyMatch_cases {r : Rule} {m : Match} (h : EGraph.Valid I g o)
    (hm : r.Justified I g o m) :
    (∃ joined g' o', r.applyMatch m g = .ok joined g' ∧
      EGraph.Enlarged I r.rhs.Builds g o g' o' ∧
      (r.guard = none → r.rhs.Entered g' o' m.2 m.1)) ∨
    ∃ e g' o', r.applyMatch m g = .error e g' ∧ EGraph.Lawful I g' o' ∧
      EGraph.Extends r.rhs.Builds g o g' o' ∧ EGraph.Clash I e := by
  rw [applyMatch_eq]
  split
  · obtain ⟨id, g₁, o₁, hrun, hb⟩ := Pattern.build_spec h hm.binds hm.means
    rw [EGraph.bind_ok hrun]
    have hlt : m.1 < g₁.size := Nat.lt_of_lt_of_le hm.lt hb.extended.size_le
    have hvalue : o₁.value m.1 = o₁.value id := by
      rw [hb.value, hb.extended.value _ hm.lt]
    rcases EGraph.union_spec hb.valid.toCore hb.valid.settled (hb.valid.known.upTo _ _) hlt hb.lt
      hvalue with ⟨g', o', hok, hu⟩ | ⟨e, herror, hclash⟩
    · refine .inl ⟨_, g', o', hok, ⟨hu.valid, hb.extended.trans (hu.extended _), ?_⟩, fun _ => ?_⟩
      · intro V hV h₀
        exact (hu.extended _).confined hu.valid.sound (hb.confined V hV (h₀ m.1 hm.lt) h₀)
      · have hentered := hb.later hu.valid.shape (hu.extended fun _ => False)
        rwa [Pattern.Entered, ← hu.find_eq] at hentered
    · exact .inr ⟨e, g₁, o₁, herror, hb.valid.toLawful, hb.extended, hclash⟩
  · next hguard =>
    refine .inl ⟨false, g, o, rfl, ⟨h, .refl, fun V _ h₀ => h₀⟩, fun hnone => ?_⟩
    rw [hnone] at hguard
    exact absurd rfl hguard

/-- **Applying a rule** that holds to a match keeps the graph in order. -/
theorem Rule.applyMatch_spec {r : Rule} {m : Match} (h : EGraph.Valid I g o) (hr : r.Holds I)
    (hm : r.lhs.Instance I g o m) : EGraph.Ends I r.rhs.Builds g o (r.applyMatch m g) := by
  have hjust : r.Justified I g o m :=
    ⟨hm.lt, fun x hx => hm.binds x (r.rhs_bound x hx), hr _ _ hm.means⟩
  rcases applyMatch_cases h hjust with ⟨joined, g', o', hrun, hg, -⟩ |
    ⟨e, g', o', hrun, hlawful, hext, hclash⟩
  · rw [hrun]
    exact ⟨o', hg.valid, hg.extended⟩
  · rw [hrun]
    exact ⟨o', hlawful, hext, hclash⟩

end EqSat
