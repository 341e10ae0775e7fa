import EqSat.Proofs.Classes
import EqSat.Proofs.Extraction
import EqSat.Proofs.Occurrences
import EqSat.Proofs.Remembered

/-!
# Shared nodes

An extraction gives every class one place, however many nodes ask for it, and lays out no class
that is not asked for.  A class is laid out after its children, which stand lower, so that it is not
among the classes that get their places before it.  The nodes of the term are therefore those of
different classes, and all but the last are children of later ones.

The classes can also be laid out in a loop, over a stack on which a class waits for its children.

    advances_layOut            what the layout of a class adds
    extract_inLoop             the loop lays out what an extraction does
    Operated.extract_shares    an extracted term is found in the graph, with a node for a class
-/

namespace EqSat

/-- There is a node at `i`, and it is no child of another one. -/
def Term.Unused (t : Term) (i : Nat) : Prop :=
  i < t.size ∧ ∀ (j : Nat) (n : Node Nat), t.nodes[j]? = some n → i ∉ n.children

/-- A node that is added uses its children. -/
theorem Term.unused_of_push {t : Term} {n : Node Nat} (hlt : ∀ c ∈ n.children, c < t.size) {i : Nat}
    (h : (t.push n hlt).Unused i) : t.Unused i ∧ i ∉ n.children ∨ i = t.size := by
  obtain ⟨hi, hall⟩ := h
  rw [Term.size_push] at hi
  rcases Nat.lt_succ_iff_lt_or_eq.1 hi with hi | rfl
  · refine .inl ⟨⟨hi, fun j m hm => hall j m ?_⟩, hall t.size n Array.getElem?_push_size⟩
    have hj : j < t.nodes.size := (Array.getElem?_eq_some_iff.1 hm).1
    rw [Term.push, Array.getElem?_push_lt hj, ← Array.getElem?_eq_getElem hj, hm]
  · exact .inr rfl

namespace EGraph

variable {g : EGraph} {cost : CostFunction Nat} {best : Choices Nat} {height cls : ClassId → Nat}
  {l l' l₀ : Layout} {id a : ClassId} {n : ENode} {stack : List ClassId}

/-! ## What a layout adds -/

/-- Every node that has been laid out is at the place of a class. -/
def Layout.Filled (l : Layout) : Prop :=
  ∀ i, i < l.term.size → ∃ id : ClassId, l.places[id]? = some i

/-- The layout of the classes `ids` adds nodes at places of their own, for classes that are no
higher, and uses them, but for the places of `ids`. -/
structure Advances (g : EGraph) (height : ClassId → Nat) (l l' : Layout) (ids : List ClassId) :
    Prop where
  filled : l.Filled → l'.Filled
  low : ∀ (id : ClassId) (p : Nat), l'.places[id]? = some p →
    l.places[id]? = some p ∨ ∃ a ∈ ids, height id ≤ height (g.find a)
  used : ∀ i, l'.term.Unused i →
    l.term.Unused i ∨ ∃ a ∈ ids, l'.places[g.find a]? = some i

theorem Advances.refl (g : EGraph) (height : ClassId → Nat) (l : Layout) (ids : List ClassId) :
    g.Advances height l l ids where
  filled := id
  low := fun _ _ hp => .inl hp
  used := fun _ hi => .inl hi

theorem Advances.cons {l₁ : Layout} {ids : List ClassId} (h : g.Advances height l l₁ [a])
    (hkept : Kept l₁ l') (h' : g.Advances height l₁ l' ids) :
    g.Advances height l l' (a :: ids) where
  filled := fun hl => h'.filled (h.filled hl)
  low := by
    intro id p hp
    rcases h'.low id p hp with hp | ⟨b, hb, hle⟩
    · rcases h.low id p hp with hp | ⟨b, hb, hle⟩
      · exact .inl hp
      · exact .inr ⟨b, List.mem_cons.2 (.inl (List.mem_singleton.1 hb)), hle⟩
    · exact .inr ⟨b, List.mem_cons_of_mem a hb, hle⟩
  used := by
    intro i hi
    rcases h'.used i hi with hi | ⟨b, hb, hp⟩
    · rcases h.used i hi with hi | ⟨b, hb, hp⟩
      · exact .inl hi
      · exact .inr ⟨b, List.mem_cons.2 (.inl (List.mem_singleton.1 hb)), hkept _ i hp⟩
    · exact .inr ⟨b, List.mem_cons_of_mem a hb, hp⟩

/-- The class has no place yet when its children have theirs. -/
theorem Completes.fresh_after {fuel : Nat} (hdone : g.Completes best fuel l l' id n)
    (hlower : ∀ a ∈ n.children, height (g.find a) < height (g.find id))
    (h : g.Advances height l l' n.children) : l'.places[g.find id]? = none := by
  refine Option.eq_none_iff_forall_ne_some.2 fun p hp => ?_
  rcases h.low _ p hp with hp | ⟨a, ha, hle⟩
  · rw [hdone.fresh] at hp
    cases hp
  · exact Nat.lt_irrefl _ (Nat.lt_of_le_of_lt hle (hlower a ha))

/-- The node of a class uses those of its children, and takes a place that is not theirs. -/
theorem Completes.advances {fuel : Nat} (hdone : g.Completes best fuel l l' id n)
    (hlower : ∀ a ∈ n.children, height (g.find a) < height (g.find id))
    (h : g.Advances height l l' n.children) :
    g.Advances height l (g.layOut best (fuel + 1) l id) [id] := by
  have hself := hdone.fresh_after hlower h
  rw [hdone.layOut_eq]
  refine ⟨fun hl i hi => ?_, fun j p hp => ?_, fun i hi => ?_⟩
  · rw [Term.size_push] at hi
    rcases Nat.lt_succ_iff_lt_or_eq.1 hi with hi | rfl
    · obtain ⟨j, hj⟩ := h.filled hl i hi
      refine ⟨j, ?_⟩
      rw [Std.TreeMap.getElem?_insert, if_neg, hj]
      intro heq
      rw [← Std.compare_eq_iff_eq.1 heq, hself] at hj
      cases hj
    · exact ⟨g.find id, Std.TreeMap.getElem?_insert_self⟩
  · rw [Std.TreeMap.getElem?_insert] at hp
    split at hp
    · next heq =>
      rw [← Std.compare_eq_iff_eq.1 heq]
      exact .inr ⟨id, List.mem_singleton_self id, Nat.le_refl _⟩
    · refine (h.low j p hp).imp_right fun ⟨a, ha, hle⟩ => ?_
      exact ⟨id, List.mem_singleton_self id, Nat.le_trans hle (Nat.le_of_lt (hlower a ha))⟩
  · rcases Term.unused_of_push hdone.lt hi with ⟨hi, hnot⟩ | rfl
    · refine (h.used i hi).imp_right fun ⟨a, ha, hp⟩ => absurd ?_ hnot
      rw [hdone.places a ha] at hp
      cases hp
      exact Node.mem_children_map _ ha
    · exact .inr ⟨id, List.mem_singleton_self id, Std.TreeMap.getElem?_insert_self⟩

/-- Laying out the classes one after the other, where laying out each of them advances. -/
theorem advances_children {fuel : Nat} (hall : g.LaysOut best height fuel)
    (hone : ∀ {l cls a}, g.Laid best l cls → a < g.size → height (g.find a) < fuel →
      g.Advances height l (g.layOut best fuel l a) [a])
    (cs : List ClassId) (hcs : ∀ a ∈ cs, a < g.size ∧ height (g.find a) < fuel)
    (hl : g.Laid best l cls) :
    g.Advances height l (cs.foldl (fun l a => g.layOut best fuel l a) l) cs := by
  induction cs generalizing l cls with
  | nil => exact .refl g height _ []
  | cons a cs ih =>
    have ha := hcs a List.mem_cons_self
    have hrest : ∀ b ∈ cs, b < g.size ∧ height (g.find b) < fuel :=
      fun b hb => hcs b (List.mem_cons_of_mem a hb)
    obtain ⟨cls₁, hl₁, -, -⟩ := hall l cls a hl ha.1 ha.2
    obtain ⟨-, -, hkept, -⟩ := layOut_children hall cs hrest hl₁
    exact (hone hl ha.1 ha.2).cons hkept (ih hrest hl₁)

/-- **The layout** of a class, by induction on its depth. -/
theorem advances_layOut (hg : g.Grounded) (hb : g.Chosen cost best height) (fuel : Nat)
    (hl : g.Laid best l cls) (hid : id < g.size) (hfuel : height (g.find id) < fuel) :
    g.Advances height l (g.layOut best fuel l id) [id] := by
  induction fuel generalizing l cls id with
  | zero => exact absurd hfuel (Nat.not_lt_zero _)
  | succ fuel ih =>
    have hall := laysOut hg hb fuel
    obtain ⟨p, hp, heq⟩ | ⟨l', n, cls', hdone, -, -⟩ := layOut_cases hg hb hall hl hid hfuel
    · rw [heq]
      exact .refl g height l [id]
    · obtain ⟨k, hn⟩ := hdone.chosen
      have hlower := hb.lower _ k n hn
      refine hdone.advances hlower ?_
      rw [hdone.children]
      exact advances_children hall ih n.children (fun a ha => ⟨hb.child_lt hg hn a ha,
        Nat.lt_of_lt_of_le (hlower a ha) (Nat.le_of_lt_succ hfuel)⟩) hl

/-- Where the places are filled, different nodes belong to different classes. -/
theorem Laid.injective (hl : g.Laid best l cls) (hfilled : l.Filled) {i j : Nat}
    (hi : i < l.term.size) (hj : j < l.term.size) (h : cls i = cls j) : i = j := by
  have hplace : ∀ i, i < l.term.size → l.places[cls i]? = some i := by
    intro i hi
    obtain ⟨id, hid⟩ := hfilled i hi
    rw [(hl.place id i hid).2, hid]
  have hboth := hplace j hj
  rw [← h, hplace i hi] at hboth
  exact Option.some.inj hboth

/-- An extracted term spells its class by nodes of different classes, and uses all but the last. -/
theorem extract_uses (hg : g.Grounded) (hclean : g.clean = true) (hc : cost.Above)
    (hm : cost.Monotone) (hid : id < g.size) :
    ∃ e cls, g.extract cost id = .ok e ∧ g.Spells e.term cls id ∧
      (∀ i j, i < e.term.size → j < e.term.size → cls i = cls j → i = j) ∧
      ∀ i, e.term.Unused i → i = e.term.size - 1 := by
  obtain ⟨height, hb⟩ := chosen_choices hg hc hm
  obtain ⟨k, n, l, cls, hn, rfl, hrun, hl, hlast⟩ := exists_layout hg hclean hb hid
  have hadvances := advances_layOut hg hb (g.numClasses + 1) (laid_empty g (g.choices cost))
    (find_lt hg.shape hid) (by
      rw [find_find hg.shape, numClasses_eq]
      exact Nat.lt_succ_of_lt (hb.bound _ k n hn))
  refine ⟨_, cls, hrun, hl.spells hb hlast, fun i j => hl.injective ?_, fun i hi => ?_⟩
  · exact hadvances.filled fun i hi => absurd hi (Nat.not_lt_zero i)
  · rcases hadvances.used i hi with ⟨hi, -⟩ | ⟨a, ha, hp⟩
    · exact absurd hi (Nat.not_lt_zero i)
    · rw [List.mem_singleton.1 ha, find_find hg.shape, hlast] at hp
      exact (Option.some.inj hp).symm

/-! ## The loop -/

/-- A round of the loop that lays out the classes of a stack.  The topmost class is given its place,
or stays where it is, below those of its children that have none.  No round follows when the stack
is empty. -/
def layOutRound {κ : Type} (g : EGraph) (best : Choices κ) :
    List ClassId × Layout → Option (List ClassId × Layout)
  | ([], _) => none
  | (id :: stack, l) =>
    if l.places.contains id then some (stack, l)
    else match best.choice? id with
      | none => none
      | some (_, n) =>
        match (n.children.map g.find).filter fun a => !l.places.contains a with
        | [] => ((n.mapM fun a => l.places[g.find a]?).bind l.term.push?).map fun t =>
          (stack, ⟨t, l.places.insert id (t.size - 1)⟩)
        | a :: missing => some (a :: missing ++ id :: stack, l)

/-- Rounds of the loop lead from one stack and layout to another. -/
def LoopsTo {κ : Type} (g : EGraph) (best : Choices κ) :
    List ClassId × Layout → List ClassId × Layout → Prop :=
  Relation.ReflTransGen fun s s' => g.layOutRound best s = some s'

theorem loopsTo_of_placed {p : Nat} (h : l.places[id]? = some p) :
    g.LoopsTo best (id :: stack, l) (stack, l) :=
  .single (by rw [layOutRound, if_pos (Layout.contains_of_placed h)])

/-- The children that have no places, in front of the rest of the stack. -/
theorem loopsTo_children {fuel : Nat} (hall : g.LaysOut best height fuel)
    (hone : ∀ stack {l cls a}, g.Laid best l cls → a < g.size → height (g.find a) < fuel →
      g.LoopsTo best (g.find a :: stack, l) (stack, g.layOut best fuel l a))
    (stack cs : List ClassId) (hcs : ∀ a ∈ cs, a < g.size ∧ height (g.find a) < fuel)
    (hl : g.Laid best l cls) (hkept : Kept l₀ l) :
    g.LoopsTo best ((cs.map g.find).filter (fun a => !l₀.places.contains a) ++ stack, l)
      (stack, cs.foldl (fun l a => g.layOut best fuel l a) l) := by
  induction cs generalizing l cls with
  | nil => exact .refl
  | cons a cs ih =>
    have ha := hcs a List.mem_cons_self
    have hrest : ∀ b ∈ cs, b < g.size ∧ height (g.find b) < fuel :=
      fun b hb => hcs b (List.mem_cons_of_mem a hb)
    rw [List.map_cons, List.foldl_cons]
    cases hplace : l₀.places[g.find a]? with
    | some p =>
      rw [List.filter_cons_of_neg (by simp [Layout.contains_of_placed hplace]),
        layOut_of_placed (hkept _ p hplace)]
      exact ih hrest hl hkept
    | none =>
      obtain ⟨cls₁, hl₁, hkept₁, -⟩ := hall l cls a hl ha.1 ha.2
      rw [List.filter_cons_of_pos (by simp [Layout.not_contains hplace]), List.cons_append]
      exact (hone _ hl ha.1 ha.2).trans
        (ih hrest hl₁ fun j p hp => hkept₁ j p (hkept j p hp))

/-- A class whose children have places is given its own. -/
theorem Completes.layOutRound_eq {fuel : Nat} (hdone : g.Completes best fuel l l' id n)
    (hfresh : l'.places[g.find id]? = none) :
    g.layOutRound best (g.find id :: stack, l') = some (stack, g.layOut best (fuel + 1) l id) := by
  obtain ⟨k, hn⟩ := hdone.chosen
  have hmissing : (n.children.map g.find).filter (fun a => !l'.places.contains a) = [] := by
    rw [List.filter_eq_nil_iff]
    intro b hb
    obtain ⟨a, ha, rfl⟩ := List.mem_map.1 hb
    simp [Layout.contains_of_placed (hdone.places a ha)]
  rw [layOutRound, if_neg (by rw [Layout.not_contains hfresh]; decide), hn]
  dsimp only
  rw [hmissing]
  dsimp only
  rw [Layout.push_over hdone.places hdone.lt, Option.map_some, hdone.layOut_eq, Term.size_push,
    Nat.add_sub_cancel]

/-- **The loop** lays out the class on top of the stack as the recursion does. -/
theorem loopsTo_layOut (hg : g.Grounded) (hb : g.Chosen cost best height) {fuel : Nat}
    (stack : List ClassId) (hl : g.Laid best l cls) (hid : id < g.size)
    (hfuel : height (g.find id) < fuel) :
    g.LoopsTo best (g.find id :: stack, l) (stack, g.layOut best fuel l id) := by
  induction fuel generalizing l cls id stack with
  | zero => exact absurd hfuel (Nat.not_lt_zero _)
  | succ fuel ih =>
    have hall := laysOut hg hb fuel
    obtain ⟨p, hp, heq⟩ | ⟨l', n, cls', hdone, hl', hkept⟩ := layOut_cases hg hb hall hl hid hfuel
    · rw [heq]
      exact loopsTo_of_placed hp
    · obtain ⟨k, hn⟩ := hdone.chosen
      have hlower := hb.lower _ k n hn
      have hchildren : ∀ a ∈ n.children, a < g.size ∧ height (g.find a) < fuel := fun a ha =>
        ⟨hb.child_lt hg hn a ha, Nat.lt_of_lt_of_le (hlower a ha) (Nat.le_of_lt_succ hfuel)⟩
      have hadv : g.Advances height l l' n.children := by
        rw [hdone.children]
        exact advances_children hall (advances_layOut hg hb fuel) n.children hchildren hl
      have hrest := loopsTo_children hall (fun stack _ _ _ => ih stack) (g.find id :: stack)
        n.children hchildren hl fun _ _ hp => hp
      rw [← hdone.children] at hrest
      have hlast := hrest.tail (hdone.layOutRound_eq (hdone.fresh_after hlower hadv))
      -- the class stays on the stack below the children that have no places
      cases hmissing : (n.children.map g.find).filter (fun a => !l.places.contains a) with
      | nil =>
        rw [hmissing] at hlast
        exact hlast
      | cons a missing =>
        rw [hmissing] at hlast
        refine .head ?_ hlast
        rw [layOutRound, if_neg (by rw [Layout.not_contains hdone.fresh]; decide), hn]
        dsimp only
        rw [hmissing]

/-- **In a loop** the term that is extracted comes out, and its last node is at the place of the
class. -/
theorem extract_inLoop (hg : g.Grounded) (hclean : g.clean = true) (hc : cost.Above)
    (hm : cost.Monotone) (hid : id < g.size) :
    ∃ e places, g.extract cost id = .ok e ∧
      g.LoopsTo (g.choices cost) ([g.find id], ⟨.empty, ∅⟩) ([], ⟨e.term, places⟩) ∧
      places[g.find id]? = some (e.term.size - 1) := by
  obtain ⟨height, hb⟩ := chosen_choices hg hc hm
  obtain ⟨k, n, l, cls, hn, rfl, hrun, hl, hlast⟩ := exists_layout hg hclean hb hid
  have hheight : height (g.find (g.find id)) < g.numClasses + 1 := by
    rw [find_find hg.shape, numClasses_eq]
    exact Nat.lt_succ_of_lt (hb.bound _ k n hn)
  have hloop := loopsTo_layOut hg hb [] (laid_empty g (g.choices cost)) (find_lt hg.shape hid)
    hheight
  rw [find_find hg.shape] at hloop
  exact ⟨_, _, hrun, hloop, hlast⟩

/-! ## Terms in the graph -/

/-- The term is found in the class of `id`.  Its nodes stand after their children, and all but the
last are children.  They are listed by different classes, over the classes of their children, so
that they are no more than the classes of the graph. -/
structure Shares (g : EGraph) (t : Term) (id : ClassId) : Prop where
  found : g.lookupTerm t = some (g.find id)
  ordered : ∀ (i : Nat) (n : Node Nat), t.nodes[i]? = some n → ∀ c ∈ n.children, c < i
  used : ∀ i, i + 1 < t.size → ∃ (j : Nat) (n : Node Nat), i < j ∧ t.nodes[j]? = some n ∧
    i ∈ n.children
  once : ∃ ids : Array ClassId, g.lookupNodes t.nodes.toList #[] = some ids ∧
    ids.size = t.size ∧ ids.toList.Nodup ∧
    ∀ (i : Nat) (n : Node Nat), t.nodes[i]? = some n →
      g.Lists (n.map fun c => ids.getD c 0) (ids.getD i 0)
  size_le : t.size ≤ g.numClasses

/-- The nodes that spell a class are listed, over the classes of that day. -/
theorem Spells.stored {t : Term} (h : g.HashConsed) (ht : g.Spells t cls id) {i : Nat}
    {n : Node Nat} (hn : t.nodes[i]? = some n) :
    ∃ c, g.stored? (cls i) = some c ∧ n.map cls ∈ c.nodes := by
  obtain ⟨c, m, hc, hmem, hmap⟩ := ht.node i n hn
  have hm : g.canonicalize m = m :=
    Node.map_eq_self fun a ha => (h.children _ c hc m hmem a ha).2
  rw [hmap, hm]
  exact ⟨c, hc, hmem⟩

/-- Nodes of different classes are no more than the classes there are. -/
theorem Spells.size_le {t : Term} (hs : g.Shape) (ht : g.Spells t cls id)
    (hdistinct : ∀ i j, i < t.size → j < t.size → cls i = cls j → i = j) :
    t.size ≤ g.numClasses := by
  rw [← card_roots hs, ← Finset.card_range t.size]
  refine Finset.card_le_card_of_injOn cls (fun i hi => ?_) fun i hi j hj =>
    hdistinct i j (Finset.mem_range.1 hi) (Finset.mem_range.1 hj)
  obtain ⟨n, hn⟩ := Term.exists_node (Finset.mem_range.1 hi)
  obtain ⟨c, -, hc, -⟩ := ht.node i n hn
  exact (mem_roots hs).2 ((hs.stored_iff _).1 ⟨c, hc⟩)

/-- A term that spells a class by nodes of different classes, and uses them, is found there. -/
theorem Spells.shares {t : Term} (hs : g.Shape) (h : g.HashConsed) (ht : g.Spells t cls id)
    (hdistinct : ∀ i j, i < t.size → j < t.size → cls i = cls j → i = j)
    (hused : ∀ i, t.Unused i → i = t.size - 1) : g.Shares t id := by
  have hfound : ∀ (i : Nat) (n : Node Nat), t.nodes.toList[i]? = some n →
      g.lookup (n.map cls) = some (cls i) := by
    intro i n hn
    obtain ⟨c, hc, hmem⟩ := ht.stored h (by rwa [Array.getElem?_toList] at hn)
    exact h.lookup _ c _ hc hmem
  obtain ⟨ids, hids, hsize, hcls⟩ := lookupNodes_eq cls Term.lt_of_mem_children_toList hfound
    t.nodes.toList #[] (fun i hi => by simp at hi) rfl (Nat.zero_le _)
  have hsize' : ids.size = t.size := hsize.trans Array.length_toList
  have hgetD : ∀ i, i < t.size → ids.getD i 0 = cls i := by
    intro i hi
    rw [Array.getD_eq_getD_getElem?, hcls i (hsize' ▸ hi), Option.getD_some]
  refine ⟨?_, fun i n hn c hc => Term.lt_of_mem_children hn hc, fun i hi => ?_,
    ⟨ids, hids, hsize', ?_, fun i n hn => ?_⟩, ht.size_le hs hdistinct⟩
  · have hlast := hcls (t.size - 1) (by rw [hsize']; exact Term.size_sub_one_lt ht.nonempty)
    show (g.lookupNodes t.nodes.toList #[]).bind Array.back? = _
    rw [hids, Option.bind_some, Array.back?, hsize', hlast, ht.root]
  · -- a node that no other one has for a child would be the last
    by_contra hno
    have hlast := hused i ⟨Nat.lt_of_succ_lt hi, fun j n hn hmem =>
      hno ⟨j, n, Term.lt_of_mem_children hn hmem, hn, hmem⟩⟩
    omega
  · rw [List.nodup_iff_getElem?_ne_getElem?]
    intro i j hij hj heq
    rw [Array.length_toList] at hj
    rw [Array.getElem?_toList, Array.getElem?_toList, hcls i (Nat.lt_trans hij hj),
      hcls j hj] at heq
    rw [hsize'] at hj
    exact Nat.ne_of_lt hij (hdistinct i j (Nat.lt_trans hij hj) hj (Option.some.inj heq))
  · have hi : i < t.size := (Array.getElem?_eq_some_iff.1 hn).1
    obtain ⟨c, hc, hmem⟩ := ht.stored h hn
    have hmap : (n.map fun c => ids.getD c 0) = n.map cls :=
      Node.map_congr fun c hc => hgetD c (Nat.lt_trans (Term.lt_of_mem_children hn hc) hi)
    rw [hmap, hgetD i hi]
    exact (mem_nodesAt_of_stored hs hc).2 hmem

end EGraph

open EGraph

variable {analysis : Analysis} {g : EGraph} {id : ClassId}

/-- **Extracted terms are shared.**  From every clean graph a smallest term is extracted for every
id.  It is found in the class of the id, children before their parents and all in use, and no class
has a part in it twice. -/
theorem Operated.extract_shares (h : Operated analysis g) (hclean : g.clean = true)
    (hid : id < g.size) : ∃ e, g.extract .size id = .ok e ∧ g.Shares e.term id := by
  have hg := h.reached.orderly
  obtain ⟨e, cls, hrun, hspells, hdistinct, hused⟩ :=
    extract_uses h.reached.backed.toGrounded hclean CostFunction.above_size
      CostFunction.monotone_size hid
  exact ⟨e, hrun, hspells.shares hg.shape (hg.hashConsed_of_clean hclean) hdistinct hused⟩

/-- The sum of the minuses of two variables is multiplied by itself, and the variables are found to
be equal. -/
def squared : EGraph :=
  Operation.runAll [.add (.leaf (.var "x")), .add (.leaf (.var "y")), .add (.unary .minus 0),
    .add (.unary .minus 1), .add (.binary .add 2 3), .add (.binary .mul 4 4), .union 0 1, .rebuild]
    (empty .constantFolding)

/-- The product stands for a tree of eleven nodes.  It is extracted as four, one for each class. -/
theorem extract_shares_squared :
    Operated .constantFolding squared ∧ squared.clean = true ∧ 5 < squared.size ∧
      squared.numClasses = 4 ∧
      ∃ e, squared.extract .size 5 = .ok e ∧ e.cost = 11 ∧
        e.term.nodes = #[.leaf (.var "x"), .unary .minus 0, .binary .add 1 1, .binary .mul 2 2] ∧
        squared.Shares e.term 5 := by
  have h : Operated .constantFolding squared := by
    refine Operated.empty.runAll ?_
    simp only [Operation.FitAll, Operation.Fits, Node.children]
    decide +kernel
  have hclean : squared.clean = true := by decide +kernel
  have hlt : 5 < squared.size := by decide +kernel
  obtain ⟨e, hrun, hshares⟩ := h.extract_shares hclean hlt
  have hextract : (squared.extract .size 5).toOption.map (fun e => (e.cost, e.term.nodes)) =
      some (11, #[.leaf (.var "x"), .unary .minus 0, .binary .add 1 1, .binary .mul 2 2]) := by
    decide +kernel
  rw [hrun] at hextract
  obtain ⟨hcost, hnodes⟩ := Prod.mk.inj (Option.some.inj hextract)
  exact ⟨h, hclean, hlt, by decide +kernel, e, hrun, hcost, hnodes, hshares⟩

end EqSat
