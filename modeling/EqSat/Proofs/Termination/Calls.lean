import EqSat.Proofs.Coherent
import EqSat.Proofs.Termination.Open

/-!
# The calls come to an end

Settling a class adds the leaf of its constant, which settles the class of the leaf; and it joins
the two, which settles the joined class.  But both of these classes hold the leaf already.  What is
called for them finds the leaf, joins nothing, and prunes a class that will be pruned anyway.  So
the calls go no deeper, and they do the same as the bounded calls, which leave them out.

    settle_at_home    a class that holds the leaf of its constant is pruned, and no more
    settle_ends       settling ends, as do adding and uniting
-/

namespace EqSat.Open

open EGraph

variable {g g' : EGraph} {id i : ClassId} {k : Constant} {n : ENode}

/-- Two programs that end as bounded ones do, the one after the other. -/
theorem Ends.bind_bounded {σ α β : Type} {s : σ} {x : Open σ α} {y : α → Open σ β}
    {f : EStateM Conflict σ α} {k : α → EStateM Conflict σ β} (hx : x.Ends s (f s))
    (hy : ∀ a s', f s = .ok a s' → (y a).Ends s' (k a s')) :
    (x >>= y).Ends s ((f >>= k) s) := by
  cases hf : f s with
  | ok a s' =>
    rw [hf] at hx
    rw [bind_ok hf]
    exact .bind hx (hy a s' hf)
  | error e s' =>
    rw [hf] at hx
    rw [bind_error hf]
    exact .conflict hx

/-! ## Settling -/

theorem add_of_memo (h : g.memo[g.canonicalize n]? = some i) :
    (call (.add n)).Ends g (.ok (g.find i) g) := by
  refine .call (.after_get ?_)
  dsimp only
  rw [h]
  exact .of_pure _ g

theorem add_of_absent (h : g.memo[g.canonicalize n]? = none)
    {o : EStateM.Result Conflict EGraph ClassId}
    (ho : (do call (.settle g.size); return (← get).find g.size : Open EGraph ClassId).Ends
      (g.enter (g.canonicalize n)) o) : (call (.add n)).Ends g o := by
  refine .call (.after_get ?_)
  dsimp only
  rw [h]
  exact .after_set ho

theorem settle_of_unknown (h : g.constantAt? id = none) :
    (call (.settle id)).Ends g (.ok () g) := by
  refine .call (.after_get ?_)
  rw [h]
  exact .of_pure () g

/-- Settling ends where the leaf is added and joined, and the class pruned. -/
theorem settle_of_known {leaf : ClassId} {joined : Bool} {g₁ g₂ : EGraph}
    (h : g.constantAt? id = some k) (hadd : (call (.add (.leaf (.const k)))).Ends g (.ok leaf g₁))
    (hunion : (call (.union id leaf)).Ends g₁ (.ok joined g₂)) :
    (call (.settle id)).Ends g (.ok () (g₂.modifyClass (g₂.find id) EClass.prune)) := by
  refine .call (.after_get ?_)
  rw [h]
  exact .bind hadd (.bind hunion (.of_modify _ g₂))

theorem union_of_equal {a b : ClassId} (h : merge a b g = .ok false g') :
    (call (.union a b)).Ends g (.ok false g') := by
  have hmerge : (of (merge a b)).Ends g (.ok false g') := h ▸ .of (merge a b) g
  exact .call (.bind hmerge (.of_pure false g'))

theorem union_of_joined {a b : ClassId} {g₁ : EGraph} (h : merge a b g = .ok true g₁)
    (hsettle : (call (.settle a)).Ends g₁ (.ok () g')) :
    (call (.union a b)).Ends g (.ok true g') := by
  have hmerge : (of (merge a b)).Ends g (.ok true g₁) := h ▸ .of (merge a b) g
  exact .call (.bind hmerge (.bind hsettle (.of_pure true g')))

/-- Joining an id with one of its class changes nothing. -/
theorem merge_of_find_eq {a b : ClassId} (hs : g.Shape) (ha : a < g.size) (hb : b < g.size)
    (hab : g.find a = g.find b) : merge a b g = .ok false g := by
  rcases merge_cases hs ha hb with ⟨-, hm⟩ | ⟨x, y, hxy, -, hsides, -⟩
  · exact hm
  · exact absurd hab (hsides.find_ne hxy)

theorem modifyClass_eq_self {c : EClass} {f : EClass → EClass} (hc : g.stored? id = some c)
    (hf : f c = c) : g.modifyClass id f = g := by
  have hclasses : g.classes.modify id (Option.map f) = g.classes := by
    refine Array.ext_getElem? fun j => ?_
    rw [Array.getElem?_modify]
    split
    · next hj =>
      subst hj
      rw [Option.join_eq_some_iff.1 hc]
      exact congrArg (fun c => some (some c)) hf
    · rfl
  rw [modifyClass, hclasses]

/-- Pruning a class again changes nothing. -/
theorem prune_prune (hs : g.Shape) (hid : id < g.size) :
    (g.modifyClass (g.find id) EClass.prune).modifyClass (g.find id) EClass.prune =
      g.modifyClass (g.find id) EClass.prune := by
  obtain ⟨c, hc⟩ := exists_stored hs hid
  refine modifyClass_eq_self (c := c.prune) ?_ ?_
  · rw [stored_modifyClass, if_pos rfl, hc]
    rfl
  · simp [EClass.prune]

/-- A class that holds the leaf of its constant is pruned, and no more. -/
theorem settle_at_home (hs : g.Shape) (hid : id < g.size) (hk : g.constantAt? id = some k)
    (hm : g.memo[(Node.leaf (.const k) : ENode)]? = some i) (hi : g.find i = g.find id) :
    (call (.settle id)).Ends g (.ok () (g.modifyClass (g.find id) EClass.prune)) := by
  have hmerge : merge id (g.find i) g = .ok false g := by
    refine merge_of_find_eq hs hid ?_ ?_
    · rw [hi]
      exact find_lt hs hid
    · rw [find_find hs, hi]
  exact settle_of_known hk (add_of_memo hm) (union_of_equal hmerge)

/-- The leaf of a constant is added as it is entered: its class is settled at once. -/
theorem add_leaf (hs : g.Shape) (ha : g.analysis = .constantFolding) :
    (call (.add (.leaf (.const k)))).Ends g (intern (.leaf (.const k)) g) := by
  rw [intern_eq]
  cases hm : g.memo[(Node.leaf (.const k) : ENode)]? with
  | some i => exact add_of_memo hm
  | none =>
    have hchild : ∀ a ∈ (Node.leaf (.const k) : ENode).children, a < g.size := by
      simp [Node.children]
    have hfold : g.foldNode (.leaf (.const k)) = some k := by
      rw [foldNode, ha]
      rfl
    have hfind : (g.enter (.leaf (.const k))).find g.size = g.size := find_enter_size hs
    have hsettle := settle_at_home (shape_enter hs) size_lt_enter
      ((constantAt_enter_size hs hchild).trans hfold) ((memo_enter _).trans (if_pos rfl)) rfl
    rw [hfind, modifyClass_eq_self (stored_enter_size hs hchild)
      (by simp [EClass.prune, Node.isLeaf])] at hsettle
    refine add_of_absent hm (.bind hsettle (.after_get ?_))
    dsimp only
    rw [hfind]
    exact .of_pure g.size _

/-- **Settling** ends as the bounded settling does. -/
theorem settle_ends (h : g.Indexed) (hr : g.Recalled) (hid : id < g.size) :
    (call (.settle id)).Ends g (EGraph.settle id g) := by
  rw [settle_eq]
  cases hk : g.constantAt? id with
  | none => exact settle_of_unknown hk
  | some k =>
    have hs := h.shape
    obtain ⟨j, g₁, g₂, hintern, hp, hconst, -, hmerge, hm⟩ := exists_merge_leaf h hr hid hk
    have hon := hp.ongoing.trans hm.ongoing
    have hlt : id < g₂.size := Nat.lt_of_lt_of_le hid hon.size_le
    have hadd := add_leaf (k := k) hs (h.constantFolding_of_known hk)
    rw [hintern] at hadd
    dsimp only
    rw [bind_ok hintern, bind_ok hmerge]
    by_cases hj : g₁.find id = g₁.find j
    · obtain rfl := hm.unchanged hj
      rw [decide_eq_false (not_not_intro hj)] at hmerge
      exact settle_of_known hk hadd (union_of_equal hmerge)
    · -- the join settles the class, which holds the leaf by then, and so it is pruned twice
      obtain ⟨i, hi, hij⟩ := hp.indexed.found j _ hp.leaf
      have hhome : g₂.find i = g₂.find id := (hm.ongoing.find _ _ hij).trans hm.find_eq.symm
      have hmemo : g₂.memo[(Node.leaf (.const k) : ENode)]? = some i := by
        rw [hm.memo]
        exact hi
      rw [decide_eq_true hj] at hmerge
      have hsettled := settle_of_known hk hadd (union_of_joined hmerge
        (settle_at_home hm.indexed.shape hlt (hm.ongoing.const id k hconst) hmemo hhome))
      have hfind : (g₂.modifyClass (g₂.find id) EClass.prune).find id = g₂.find id := rfl
      rw [hfind, prune_prune hm.indexed.shape hlt] at hsettled
      exact hsettled

/-! ## Adding and uniting -/

/-- **Adding** a node ends as the bounded addition does. -/
theorem add_ends (h : g.Coherent) (hn : ∀ a ∈ n.children, a < g.size) :
    (call (.add n)).Ends g (EGraph.add n g) := by
  rw [add_eq]
  cases hm : g.memo[g.canonicalize n]? with
  | some i => exact add_of_memo hm
  | none =>
    have hfresh := fresh_canonicalize h.shape hn hm
    have hsettle := settle_ends (indexed_enter h.toIndexed hfresh)
      (recalled_enter h.toIndexed h.recalled hfresh) size_lt_enter
    exact add_of_absent hm (hsettle.bind_bounded fun _ s _ => .after_get (.of_pure _ s))

/-- **Uniting** two classes ends as the bounded union does. -/
theorem union_ends {a b : ClassId} (h : g.Indexed) (hr : g.RecalledUpTo a b) (ha : a < g.size)
    (hb : b < g.size) : (call (.union a b)).Ends g (EGraph.union a b g) := by
  refine .call (Ends.bind_bounded (.of (merge a b) g) fun joined g' hrun => ?_)
  rcases merge_indexed h ha hb hr with ⟨g₁, hmerge, hm⟩ | ⟨e, hmerge, -⟩
  · obtain ⟨rfl, rfl⟩ : decide (g.find a ≠ g.find b) = joined ∧ g₁ = g' := by
      rw [hmerge] at hrun
      cases hrun
      exact ⟨rfl, rfl⟩
    cases decide (g.find a ≠ g.find b) with
    | false => exact .of_pure false g₁
    | true =>
      have hlt : a < g₁.size := Nat.lt_of_lt_of_le ha hm.ongoing.size_le
      exact (settle_ends hm.indexed hm.recalled hlt).bind_bounded fun _ s _ => .of_pure true s
  · rw [hmerge] at hrun
    cases hrun

end EqSat.Open
