import EqSat.Proofs.Tallies

/-!
# Joins that are reported, and joins that are not

A union tells whether it has joined two classes, and rules and rebuilds count what it tells.  Nobody
counts the join of a class with the leaf of its constant.  That join is made once for every class
that becomes known by evaluation: when an operator node is entered whose children are known, and
when a usage on the second worklist evaluates and its class is unknown.  It is never made by a
union, since one of the two classes holds the leaf already.

So reports and rebuilds tell all joins but one for each class that becomes known by evaluation.
These are counted here along the steps of the programs.

    settle_joins            settling joins a class with the leaf that it does not hold
    add_accounts            adding a node makes a join that nobody reports, or none
    union_accounts          a union makes the join that it reports
    unions_accounted        rebuilds and rounds
-/

namespace EqSat

open EGraph Runner

variable {analysis : Analysis} {g g' g'' : EGraph} {rules : List Rule}
  {id a b : ClassId} {n : ENode} {u : Usage} {k : Constant} {rest : List Usage}
  {reported reported' found found' nodeLimit : Nat}

/-! ## Classes that become known by evaluation -/

namespace EGraph

/-- Adding the node makes a class known: an operator that is new, and evaluates. -/
def discovers (n : ENode) (g : EGraph) : Bool :=
  !n.isLeaf && (g.memo[g.canonicalize n]?).isNone && (g.foldNode (g.canonicalize n)).isSome

/-- Evaluating the usage makes its class known. -/
def teaches (u : Usage) (g : EGraph) : Bool :=
  (g.classAt? u.2).any (·.data.isNone) && (g.foldNode u.1).isSome

/-- What there is to count behind a step, in the graph that it gives. -/
def behind {α : Type} (x : Update α) (count : α → EGraph → Nat) (g : EGraph) : Nat :=
  match x g with
  | .ok a g' => count a g'
  | .error _ _ => 0

theorem behind_ok {α : Type} {x : Update α} {count : α → EGraph → Nat} {a : α}
    (h : x g = .ok a g') : behind x count g = count a g' := by
  rw [behind, h]

end EGraph

/-- The classes that become known while the pattern is built. -/
def Pattern.discoveries (s : Subst) : Pattern → EGraph → Nat
  | hole _, _ => 0
  | leaf _, _ => 0
  | unary op p, g =>
    p.discoveries s g + behind (p.build s) (fun a g => (discovers (.unary op a) g).toNat) g
  | binary op p q, g =>
    p.discoveries s g + behind (p.build s) (fun a g =>
      q.discoveries s g + behind (q.build s) (fun b g => (discovers (.binary op a b) g).toNat) g) g

namespace Rule

/-- The classes that become known while the rule is applied to one match. -/
def discoveriesAt (r : Rule) (m : Match) (g : EGraph) : Nat :=
  if r.guard.all (·.passes g m.2) then r.rhs.discoveries m.2 g else 0

/-- The classes that become known while the rule is applied to its matches. -/
def discoveries (r : Rule) : List Match → EGraph → Nat
  | [], _ => 0
  | m :: ms, g => r.discoveriesAt m g + behind (r.applyMatch m) (fun _ => r.discoveries ms) g

end Rule

namespace EGraph

/-- The classes that become known while rules are applied to what was found. -/
def discoveriesApplying (nodeLimit : Nat) : List (Rule × List Match) → EGraph → Nat
  | [], _ => 0
  | (r, ms) :: rest, g =>
    if ms.isEmpty then discoveriesApplying nodeLimit rest g
    else r.discoveries ms g + behind (r.applyAll ms) (fun _ g =>
      if g.numNodes > nodeLimit then 0 else discoveriesApplying nodeLimit rest g) g

/-- The classes that become known while the worklists are emptied. -/
def discoveriesDraining : Nat → Stage → EGraph → Nat
  | 0, _, _ => 0
  | fuel + 1, stage, g => match takeUsage stage g with
    | none => 0
    | some (.congruence, u, g) => behind (repair u) (fun _ => discoveriesDraining fuel .congruence) g
    | some (.constants, u, g) =>
      (teaches u g).toNat + behind (refold u) (fun _ => discoveriesDraining fuel .constants) g

/-- The classes that become known in a rebuild. -/
def discoveriesRebuilding (g : EGraph) : Nat := discoveriesDraining g.work .congruence g

/-- The classes that become known in a round. -/
def discoveriesInRound (rules : List Rule) (nodeLimit : Nat) (g : EGraph) : Nat :=
  let found := rules.map fun r => (r, r.search g)
  discoveriesApplying nodeLimit found g +
    behind (applyFound nodeLimit found []) (fun _ => discoveriesRebuilding) g

/-! ## Accounts -/

/-- Between the two graphs lie as many joins as were reported, and one more for each of the classes
that became known by evaluation, of which there are none where constants are not folded. -/
structure Accounts (g : EGraph) (reported found : Nat) (g' : EGraph) : Prop where
  analysis : g'.analysis = g.analysis
  unionCount : g'.unionCount = g.unionCount + reported + found
  unfolded : g.analysis = .empty → found = 0

namespace Accounts

theorem refl : g.Accounts 0 0 g := ⟨rfl, rfl, fun _ => rfl⟩

theorem trans (h : g.Accounts reported found g') (h' : g'.Accounts reported' found' g'') :
    g.Accounts (reported + reported') (found + found') g'' where
  analysis := h'.analysis.trans h.analysis
  unionCount := by
    rw [h'.unionCount, h.unionCount]
    omega
  unfolded := fun hempty => by
    rw [h.unfolded hempty, h'.unfolded (h.analysis.trans hempty)]

/-- Steps that report nothing. -/
theorem trans_silent (h : g.Accounts 0 found g') (h' : g'.Accounts reported' found' g'') :
    g.Accounts reported' (found + found') g'' :=
  Nat.zero_add reported' ▸ h.trans h'

/-- The report is complete exactly if no class became known by evaluation. -/
theorem complete_iff (h : g.Accounts reported found g') :
    g'.unionCount = g.unionCount + reported ↔ found = 0 := by
  have := h.unionCount
  omega

end Accounts

/-! ## Single calls -/

theorem merge_unionCount {joined : Bool} (hs : g.Shape) (ha : a < g.size) (hb : b < g.size)
    (hrun : merge a b g = .ok joined g') : g'.unionCount = g.unionCount + joined.toNat := by
  rcases merge_cases hs ha hb with ⟨-, hm⟩ | ⟨x, y, -, -, -, hm⟩
  · rw [hm] at hrun
    cases hrun
    rfl
  · rw [hm] at hrun
    rcases mergeInto_cases x y g with ⟨d, -, hinto⟩ | ⟨l, r, -, -, -, hinto⟩
    · rw [hinto] at hrun
      cases hrun
      rfl
    · rw [hinto] at hrun
      cases hrun

/-- A leaf that is looked up, and entered if it is new, belongs to the class that lists it. -/
theorem find_ne_iff_of_intern {l : Leaf} {j : ClassId} (h : g.Indexed) (hid : id < g.size)
    (hrun : intern (.leaf l) g = .ok j g') :
    g'.find id ≠ g'.find j ↔ .leaf l ∉ g.nodesAt id := by
  rw [intern_eq] at hrun
  cases hmemo : g.memo[(Node.leaf l : ENode)]? with
  | none =>
    rw [hmemo] at hrun
    cases hrun
    have habsent : .leaf l ∉ g.nodesAt id := by
      intro hleaf
      obtain ⟨i, hi, -⟩ := h.found id l hleaf
      rw [show g.canonicalize (.leaf l) = .leaf l from rfl, hmemo] at hi
      cases hi
    have hne : (g.enter (.leaf l)).find id ≠ (g.enter (.leaf l)).find g.size := by
      rw [find_enter h.shape, find_enter_size h.shape]
      exact Nat.ne_of_lt (find_lt h.shape hid)
    exact iff_of_true hne habsent
  | some i =>
    rw [hmemo] at hrun
    cases hrun
    have hleaf : .leaf l ∈ g.nodesAt i := h.leaf l i hmemo
    rw [find_find h.shape, ne_eq, not_iff_not]
    exact ⟨fun heq => nodesAt_of_find_eq heq ▸ hleaf, fun hin => h.find_eq_of_leaf hin hleaf⟩

/-- **Settling** a class of known constant joins it with the leaf of the constant, unless the class
holds it already. -/
theorem settle_joins (h : g.Indexed) (hr : g.Recalled) (hid : id < g.size)
    (hk : g.constantAt? id = some k) (hrun : settle id g = .ok () g') : g'.analysis = g.analysis ∧
      g'.unionCount = g.unionCount + (decide (.leaf (.const k) ∉ g.nodesAt id)).toNat := by
  obtain ⟨j, g₁, g₂, hintern, hp, -, -, hmerge, hm⟩ := exists_merge_leaf h hr hid hk
  have hsame : g₁.unionCount = g.unionCount := by
    rw [intern_eq] at hintern
    cases hmemo : g.memo[(Node.leaf (.const k) : ENode)]? <;>
    · rw [hmemo] at hintern
      cases hintern
      rfl
  rw [settle_eq, hk] at hrun
  change (intern (.leaf (.const k)) >>= _) g = _ at hrun
  rw [bind_ok hintern, bind_ok hmerge] at hrun
  cases hrun
  refine ⟨hm.ongoing.analysis.trans hp.ongoing.analysis, ?_⟩
  change g₂.unionCount = _
  rw [merge_unionCount hp.indexed.shape (Nat.lt_of_lt_of_le hid hp.ongoing.size_le)
    (lt_of_mem_nodesAt hp.indexed.shape hp.leaf) hmerge, hsame]
  simp only [find_ne_iff_of_intern h hid hintern]

/-- A leaf that evaluates is that of its value. -/
theorem eq_leaf_iff_of_foldNode (hk : g.foldNode n = some k) :
    n = .leaf (.const k) ↔ n.isLeaf = true := by
  refine ⟨fun hn => hn ▸ rfl, fun hleaf => ?_⟩
  rw [foldNode, constantFolding_of_foldNode hk] at hk
  cases n with
  | leaf l =>
    cases l with
    | const c => exact congrArg (fun c => Node.leaf (.const c)) (Option.some.inj hk)
    | var s => cases hk
  | unary op a => cases hleaf
  | binary op a b => cases hleaf

/-- Adding a node makes one join that nobody reports if a class becomes known, and else none. -/
theorem add_accounts (h : g.Coherent) (hn : ∀ a ∈ n.children, a < g.size)
    (hrun : add n g = .ok id g') : g.Accounts 0 (discovers n g).toNat g' := by
  have hs := h.shape
  obtain ⟨id', g₁, hok, -, hon, -⟩ := add_coherent h hn
  rw [hok] at hrun
  cases hrun
  refine ⟨hon.analysis, ?_, fun hempty => by simp [discovers, foldNode, hempty]⟩
  rw [add_eq] at hok
  cases hm : g.memo[g.canonicalize n]? with
  | some j =>
    rw [hm] at hok
    cases hok
    simp [discovers, hm]
  | none =>
    have hfresh := fresh_canonicalize hs hn hm
    rw [hm] at hok
    obtain ⟨_, g₂, hsettle, hok⟩ := bind_eq_ok hok
    cases hok
    have hconst : (g.enter (g.canonicalize n)).constantAt? g.size = g.foldNode (g.canonicalize n) :=
      constantAt_enter_size hs hfresh.child_lt
    cases hk : g.foldNode (g.canonicalize n) with
    | none =>
      rw [settle_eq, hconst, hk] at hsettle
      cases hsettle
      simp [discovers, hk, EGraph.enter]
    | some k =>
      obtain ⟨-, hcount⟩ := settle_joins (indexed_enter h.toIndexed hfresh)
        (recalled_enter h.toIndexed h.recalled hfresh) size_lt_enter (hconst.trans hk) hsettle
      -- the new class holds the node alone
      have hleaf : .leaf (.const k) ∉ (g.enter (g.canonicalize n)).nodesAt g.size ↔
          ¬n.isLeaf = true := by
        rw [nodesAt_enter_size hs hfresh.child_lt, List.mem_singleton, eq_comm,
          eq_leaf_iff_of_foldNode hk, canonicalize, Node.isLeaf_map]
      rw [hcount]
      simp only [hleaf, discovers, hm, hk]
      cases n.isLeaf <;> rfl

/-- One of two settled classes holds the leaf of the constant that they are known to equal after a
join. -/
theorem leaf_mem_of_merge {joined : Bool} (hs : g.Shape) (hsettled : g.Settled) (ha : a < g.size)
    (hb : b < g.size) (hrun : merge a b g = .ok joined g') (hk : g'.constantAt? a = some k) :
    .leaf (.const k) ∈ g'.nodesAt a := by
  have hold {c : EClass} (hc : g.stored? c.id = some c) (hck : c.data = some k) :
      .leaf (.const k) ∈ c.nodes := (hsettled c.id c k not_false hc hck).2.1
  rcases merge_cases hs ha hb with ⟨-, hm⟩ | ⟨x, y, hxy, -, hab, hm⟩
  · rw [hm] at hrun
    cases hrun
    obtain ⟨c, hc, hid⟩ := exists_classAt hs ha
    rw [constantAt?, hc] at hk
    exact mem_nodesAt.2 ⟨c, hc, hold (hid ▸ hc) hk⟩
  · rw [hm] at hrun
    rcases mergeInto_cases x y g with ⟨d, hd, hinto⟩ | ⟨l, r, -, -, -, hinto⟩
    · rw [hinto] at hrun
      cases hrun
      have hside : g.find a = x.id ∨ g.find a = y.id := by
        rcases hab with ⟨hx, -⟩ | ⟨-, hy⟩
        · exact .inl hx.symm
        · exact .inr hy.symm
      rw [constantAt?, classAt_absorb hs hxy, if_pos hside] at hk
      rw [mem_nodesAt_absorb hs hxy, if_pos hside]
      exact ((mergeConstants_eq_ok hd).2.2 k hk).imp (hold hxy.left) (hold hxy.right)
    · rw [hinto] at hrun
      cases hrun

/-- **A union** makes the join that it reports, and no other. -/
theorem union_accounts {joined : Bool} (h : g.Indexed) (hsettled : g.Settled)
    (hr : g.RecalledUpTo a b) (ha : a < g.size) (hb : b < g.size)
    (hrun : union a b g = .ok joined g') : g.Accounts joined.toNat 0 g' := by
  rcases union_coherent h hsettled hr ha hb with ⟨g₁, hok, hu⟩ | ⟨e, herror, -⟩
  swap
  · rw [herror] at hrun
    cases hrun
  rw [hok] at hrun
  cases hrun
  refine ⟨hu.ongoing.analysis, ?_, fun _ => rfl⟩
  rw [show union a b g = (merge a b >>= fun joined =>
    if joined then do settle a; return true else return false) g from rfl] at hok
  rcases merge_indexed h ha hb hr with ⟨g₂, hmerge, hm⟩ | ⟨e, herror, -⟩
  swap
  · rw [bind_error herror] at hok
    cases hok
  have hcount := merge_unionCount h.shape ha hb hmerge
  rw [bind_ok hmerge] at hok
  by_cases hab : g.find a = g.find b
  · rw [hu.unchanged hab]
    simp [hab]
  · simp only [hab, ne_eq, not_false_eq_true, decide_true, if_true] at hok hcount
    obtain ⟨_, g₃, hsettle, hok⟩ := bind_eq_ok hok
    cases hok
    have ha₂ : a < g₂.size := Nat.lt_of_lt_of_le ha hm.ongoing.size_le
    cases hk : g₂.constantAt? a with
    | none =>
      rw [settle_eq, hk] at hsettle
      cases hsettle
      simpa [hab] using hcount
    | some k =>
      have hleaf := leaf_mem_of_merge h.shape hsettled ha hb hmerge hk
      obtain ⟨-, hcount'⟩ := settle_joins hm.indexed hm.recalled ha₂ hk hsettle
      rw [hcount', hcount]
      simp [hleaf, hab]

/-! ## Rebuilds -/

/-- A repair makes the join that it reports, if any. -/
theorem repair_accounts {joined : Bool} (h : g.Coherent) (hp : g.pending = u :: rest)
    (hrun : repair u { g with pending := rest } = .ok joined g') :
    Accounts { g with pending := rest } joined.toNat 0 g' := by
  have hmem : u ∈ g.pending := hp ▸ List.mem_cons_self
  rw [repair_eq] at hrun
  cases hm : g.memo[g.canonicalize u.1]? with
  | none =>
    rw [hm] at hrun
    cases hrun
    exact ⟨rfl, rfl, fun _ => rfl⟩
  | some j =>
    rw [hm] at hrun
    have hj := (h.entry (g.canonicalize u.1, j) (.memo hm)).lt h.shape
    have hu := (h.entry u (.pending hmem)).lt h.shape
    have hunion := union_accounts (indexed_redirect h.toIndexed hp)
      (settled_redirect_of_isLeaf h.settled (h.pending u hmem)) (recalledUpTo_redirect h hp hm)
      hj hu hrun
    exact ⟨hunion.analysis, hunion.unionCount, hunion.unfolded⟩

/-- An evaluation makes one join that nobody reports if the class becomes known, and else none. -/
theorem refold_accounts (h : g.Coherent) (hrun : refold u g = .ok () g') :
    g.Accounts 0 (teaches u g).toNat g' := by
  have hs := h.shape
  have hunfolded : g.analysis = .empty → (teaches u g).toNat = 0 := by
    intro hempty
    simp [teaches, foldNode, hempty]
  have hcases := refold_cases hs u g.foldPending
  change (_ ∧ refold u g = .ok () g) ∨ (∃ c l r, _ ∧ _ ∧ _ ∧ _ ∧ refold u g = .error _ g) ∨
    (∃ c k, _ ∧ _ ∧ _ ∧ _ ∧ refold u g = settle c.id (g.learn c (some k))) at hcases
  rcases hcases with
    ⟨htold, hok⟩ | ⟨c, l, r, -, -, -, -, herror⟩ | ⟨c, k, hc, hcid, hnone, hk, hok⟩
  · rw [hok] at hrun
    cases hrun
    refine ⟨rfl, ?_, hunfolded⟩
    have hteaches : teaches u g = false := by
      rw [teaches]
      cases hc : g.classAt? u.2 with
      | none => rfl
      | some c =>
        cases hk : g.foldNode u.1 with
        | none => simp
        | some k => simp [htold c k hc hk]
    rw [hteaches]
    rfl
  · rw [herror] at hrun
    cases hrun
  · rw [hok] at hrun
    have hclass : g.classAt? u.2 = some c := by rw [classAt?, ← hcid, hc]
    have hteaches : teaches u g = true := by simp [teaches, hclass, hnone, hk]
    have hlearned : (g.learn c (some k)).constantAt? c.id = some k := by
      rw [constantAt_learn hc, find_of_stored hs hc, if_pos rfl]
    obtain ⟨hanalysis, hcount⟩ := settle_joins
      (indexed_learn h.toIndexed hc hnone (constantFolding_of_foldNode hk))
      (recalled_learn hs h.recalled hc hnone) (lt_of_stored hs hc) hlearned hrun
    -- a class that holds the leaf of a constant is known to be that constant
    have habsent : .leaf (.const k) ∉ (g.learn c (some k)).nodesAt c.id := by
      rw [(relabels_learn hs c (some k)).nodesAt_eq]
      intro hleaf
      have hconst := h.const (constantFolding_of_foldNode hk) c.id k hleaf
      rw [constantAt_of_stored hs hc, hnone] at hconst
      cases hconst
    refine ⟨hanalysis, ?_, hunfolded⟩
    rw [hteaches, hcount, decide_eq_true habsent]
    rfl

/-- What a counter shows in the end, if a join is counted first. -/
theorem count_add (total joined : Nat) (changed : Bool) :
    (if changed then total + 1 else total) + joined = total + (changed.toNat + joined) := by
  cases changed with
  | false => simp
  | true =>
    simp only [if_true, Bool.toNat_true]
    omega

/-- Emptying the worklists adds the joins that the repairs report to those counted before. -/
theorem drain_accounts (fuel : Nat) (stage : Stage) {total total' : Nat} {g : EGraph}
    (h : g.Coherent) (hrun : drain fuel stage total g = .ok total' g') :
    ∃ joined, total' = total + joined ∧
      g.Accounts joined (discoveriesDraining fuel stage g) g' := by
  induction fuel generalizing stage total g with
  | zero =>
    cases hrun
    exact ⟨0, rfl, .refl⟩
  | succ fuel ih =>
    rw [drain_succ] at hrun
    rw [discoveriesDraining]
    rcases takeUsage_cases stage g with
      ⟨htake, -⟩ | ⟨u, rest, hp, htake⟩ | ⟨u, rest, hp, htake⟩
    · rw [htake] at hrun ⊢
      cases hrun
      exact ⟨0, rfl, .refl⟩
    · rw [htake] at hrun ⊢
      obtain ⟨changed, g₁, hrepair, hrun⟩ := bind_eq_ok hrun
      have hcoheres := (repair_coherent h hp).1
      rw [hrepair] at hcoheres
      have h₁ : g₁.Coherent := hcoheres.1
      obtain ⟨joined, rfl, hrest⟩ := ih _ h₁ hrun
      have hpop : g.Accounts 0 0 { g with pending := rest } := ⟨rfl, rfl, fun _ => rfl⟩
      have hall := hpop.trans_silent ((repair_accounts h hp hrepair).trans hrest)
      rw [Nat.zero_add, Nat.zero_add] at hall
      refine ⟨changed.toNat + joined, count_add total joined changed, ?_⟩
      dsimp only
      rw [behind_ok hrepair]
      exact hall
    · rw [htake] at hrun ⊢
      obtain ⟨⟨⟩, g₁, hrefold, hrun⟩ := bind_eq_ok hrun
      have hcoheres := (refold_coherent h hp).1
      rw [hrefold] at hcoheres
      have h₁ : g₁.Coherent := hcoheres.1
      obtain ⟨joined, rfl, hrest⟩ := ih _ h₁ hrun
      have hpop : g.Accounts 0 0 { g with foldPending := rest } := ⟨rfl, rfl, fun _ => rfl⟩
      have hall := hpop.trans_silent
        ((refold_accounts (coherent_setFoldPending h) hrefold).trans_silent hrest)
      rw [Nat.zero_add] at hall
      refine ⟨joined, rfl, ?_⟩
      dsimp only
      rw [behind_ok hrefold]
      exact hall

/-- **A rebuild** tells all joins but one for each class that becomes known in it. -/
theorem rebuild_accounts {joined : Nat} (h : g.Coherent) (hrun : rebuild g = .ok joined g') :
    g.Accounts joined g.discoveriesRebuilding g' := by
  rw [rebuild_eq] at hrun
  obtain ⟨total, g₁, hdrain, hrun⟩ := bind_eq_ok hrun
  cases hrun
  obtain ⟨joined', htotal, hcount⟩ := drain_accounts _ _ h hdrain
  obtain rfl : joined = joined' := by omega
  exact ⟨hcount.analysis, hcount.unionCount, hcount.unfolded⟩

end EGraph

/-! ## Rounds -/

/-- Building a pattern reports nothing. -/
theorem Pattern.build_accounts (p : Pattern) {s : Subst} {g : EGraph} (h : Reached analysis g)
    (hs : ∀ x ∈ p.vars, s.Binds g x) (hrun : p.build s g = .ok id g') :
    g.Accounts 0 (p.discoveries s g) g' := by
  have hP := lasting_reached analysis
  induction p generalizing g g' id with
  | hole x =>
    cases hrun
    exact .refl
  | leaf l => exact add_accounts h.orderly.toCoherent (fun a ha => by cases ha) hrun
  | unary op p ih =>
    obtain ⟨a, g₁, hp, hadd⟩ := bind_eq_ok hrun
    have hbuilt := hP.arrives_build p h hs
    rw [hp] at hbuilt
    have hchild : ∀ c ∈ (Node.unary op a).children, c < g₁.size := by
      simpa [Node.children] using hbuilt.2.2.2.1
    rw [discoveries, behind_ok hp]
    exact (ih h hs hp).trans_silent (add_accounts hbuilt.1.orderly.toCoherent hchild hadd)
  | binary op p q ihp ihq =>
    have hsp : ∀ x ∈ p.vars, s.Binds g x := fun x hx => hs x (Pattern.mem_vars_binary.2 (.inl hx))
    obtain ⟨a, g₁, hp, hrun⟩ := bind_eq_ok hrun
    have hbuilt := hP.arrives_build p h hsp
    rw [hp] at hbuilt
    obtain ⟨h₁, hle₁, -, ha, -⟩ := hbuilt
    have hsq : ∀ x ∈ q.vars, s.Binds g₁ x := fun x hx =>
      (hs x (Pattern.mem_vars_binary.2 (.inr hx))).mono hle₁
    obtain ⟨b, g₂, hq, hadd⟩ := bind_eq_ok hrun
    have hbuilt := hP.arrives_build q h₁ hsq
    rw [hq] at hbuilt
    obtain ⟨h₂, hle₂, -, hb, -⟩ := hbuilt
    have hchild : ∀ c ∈ (Node.binary op a b).children, c < g₂.size := by
      simpa [Node.children] using ⟨Nat.lt_of_lt_of_le ha hle₂, hb⟩
    rw [discoveries, behind_ok hp, behind_ok hq]
    exact (ihp h hsp hp).trans_silent ((ihq h₁ hsq hq).trans_silent
      (add_accounts h₂.orderly.toCoherent hchild hadd))

namespace Rule

variable {r : Rule} {m : Match} {ms : List Match}

theorem applyMatch_accounts {changed : Bool} (h : Reached analysis g) (hm : Match.Fits g r m)
    (hrun : r.applyMatch m g = .ok changed g') :
    g.Accounts changed.toNat (r.discoveriesAt m g) g' := by
  rw [applyMatch_eq] at hrun
  rw [discoveriesAt]
  split at hrun
  · next hguard =>
    have hs : ∀ x ∈ r.rhs.vars, m.2.Binds g x := fun x hx => hm.binds x (r.rhs_bound x hx)
    obtain ⟨b, g₁, hbuild, hunion⟩ := bind_eq_ok hrun
    have hbuilt := (lasting_reached analysis).arrives_build r.rhs h hs
    rw [hbuild] at hbuilt
    obtain ⟨h₁, hle, -, hb, -⟩ := hbuilt
    have hc := h₁.orderly.toCoherent
    rw [if_pos hguard]
    exact (r.rhs.build_accounts h hs hbuild).trans_silent (union_accounts hc.toIndexed hc.settled
      (hc.recalled.upTo _ _) (Nat.lt_of_lt_of_le hm.lt hle) hb hunion)
  · next hguard =>
    cases hrun
    rw [if_neg hguard]
    exact .refl

theorem applyFrom_accounts {total total' : Nat} (h : Reached analysis g)
    (hms : ∀ m ∈ ms, Match.Fits g r m) (hrun : r.applyFrom ms total g = .ok total' g') :
    ∃ joined, total' = total + joined ∧ g.Accounts joined (r.discoveries ms g) g' := by
  induction ms generalizing total g with
  | nil =>
    cases hrun
    exact ⟨0, rfl, .refl⟩
  | cons m ms ih =>
    have hm := hms m List.mem_cons_self
    obtain ⟨changed, g₁, hmatch, hrun⟩ := bind_eq_ok hrun
    have happlied := (lasting_reached analysis).arrives_applyMatch h hm
    rw [hmatch] at happlied
    obtain ⟨joined, rfl, hrest⟩ := ih happlied.1
      (fun m' hm' => (hms m' (List.mem_cons_of_mem _ hm')).mono happlied.2.1) hrun
    refine ⟨changed.toNat + joined, count_add total joined changed, ?_⟩
    rw [discoveries, behind_ok hmatch]
    exact (applyMatch_accounts h hm hmatch).trans hrest

end Rule

namespace EGraph

theorem applyFound_accounts {found : List (Rule × List Match)} {applied applied' : Tally}
    (h : Reached analysis g) (hfound : AllFit g found)
    (hrun : applyFound nodeLimit found applied g = .ok applied' g') :
    ∃ joined, applied'.total = applied.total + joined ∧
      g.Accounts joined (discoveriesApplying nodeLimit found g) g' := by
  induction found generalizing applied g with
  | nil =>
    cases hrun
    exact ⟨0, rfl, .refl⟩
  | cons f rest ih =>
    obtain ⟨r, ms⟩ := f
    obtain ⟨hms, hrest⟩ := List.forall_mem_cons.1 hfound
    rw [discoveriesApplying]
    cases hempty : ms.isEmpty with
    | true =>
      rw [applyFound, hempty] at hrun
      exact ih h hrest hrun
    | false =>
      rw [applyFound_cons _ _ _ _ _ hempty] at hrun
      obtain ⟨total, g₁, hrule, hrun⟩ := bind_eq_ok hrun
      obtain ⟨joined, htotal, hfirst⟩ := Rule.applyFrom_accounts h hms hrule
      obtain rfl : total = joined := by omega
      have happlied := (lasting_reached analysis).arrives_applyFrom ms 0 h hms
      rw [show r.applyFrom ms 0 g = .ok total g₁ from hrule] at happlied
      have hentered : (if total = 0 then applied else applied.count r.name total).total =
          applied.total + total := by
        split
        · next hzero => rw [hzero, Nat.add_zero]
        · exact Tally.total_count applied r.name total
      rw [if_neg Bool.false_ne_true, behind_ok hrule]
      change (if g₁.numNodes > nodeLimit then return _
        else applyFound nodeLimit rest _ : Update Tally) g₁ = _ at hrun
      split at hrun
      · next hlarge =>
        cases hrun
        rw [if_pos hlarge]
        exact ⟨total, hentered, hfirst⟩
      · next hlarge =>
        obtain ⟨joined', htotal', hlater⟩ :=
          ih happlied.1 (AllFit.mono hrest happlied.2.1) hrun
        rw [if_neg hlarge]
        exact ⟨total + joined', by rw [htotal', hentered]; omega, hfirst.trans hlater⟩

/-- **A round** reports all joins but one for each class that becomes known in it. -/
theorem saturateOnce_accounts {index : Nat} {it : Iteration} (h : Reached analysis g)
    (hrun : saturateOnce rules nodeLimit index g = .ok it g') :
    g.Accounts it.unions (discoveriesInRound rules nodeLimit g) g' := by
  rw [saturateOnce_eq] at hrun
  obtain ⟨applied, g₁, happ, hrun⟩ := bind_eq_ok hrun
  obtain ⟨joined, g₂, hreb, hrun⟩ := bind_eq_ok hrun
  cases hrun
  have hfit := h.backed.toGrounded.allFit rules
  have happlied := (lasting_reached analysis).arrives_applyFound nodeLimit _ [] h hfit
  rw [happ] at happlied
  obtain ⟨total, htotal, hfirst⟩ := applyFound_accounts h hfit happ
  have hsecond := rebuild_accounts happlied.1.orderly.toCoherent hreb
  rw [discoveriesInRound, behind_ok happ]
  rw [Tally.total, Nat.zero_add] at htotal
  rw [Iteration.unions, htotal]
  exact hfirst.trans hsecond

end EGraph

/-! ## Reports -/

/-- A number of joins that was reported: all that were made are in it but one for each of the
classes that became known by evaluation, so it is complete exactly if there are none. -/
def ReportedOf (g : EGraph) (reported found : Nat) (g' : EGraph) : Prop :=
  g.Accounts reported found g' ∧ (g'.unionCount = g.unionCount + reported ↔ found = 0)

/-- **The joins that are reported** by rebuilds of all graphs that operations make, and by all
rounds of all runs. -/
theorem unions_accounted (analysis : Analysis) :
    (∀ g joined g', Operated analysis g → rebuild g = .ok joined g' →
      ReportedOf g joined g.discoveriesRebuilding g') ∧
    ∀ rules limits r, Underway rules limits analysis r →
      (∀ it g, saturateOnce r.rules r.limits.nodes r.report.iterations.size r.egraph = .ok it g →
        ReportedOf r.egraph it.unions (discoveriesInRound r.rules r.limits.nodes r.egraph) g) ∧
      ∀ it ∈ r.report.iterations, ∃ r₀ g, Underway rules limits analysis r₀ ∧
        saturateOnce rules limits.nodes r₀.report.iterations.size r₀.egraph = .ok it g ∧
        ReportedOf r₀.egraph it.unions (discoveriesInRound rules limits.nodes r₀.egraph) g := by
  refine ⟨fun g joined g' h hrun => ?_, fun rules limits r h =>
    ⟨fun it g hrun => ?_, fun it hit => ?_⟩⟩
  · have haccounts := rebuild_accounts h.reached.orderly.toCoherent hrun
    exact ⟨haccounts, haccounts.complete_iff⟩
  · have haccounts := saturateOnce_accounts h.ready.steady.1 hrun
    exact ⟨haccounts, haccounts.complete_iff⟩
  · obtain ⟨r₀, g, hr₀, hrun⟩ := h.traced it hit
    have haccounts := saturateOnce_accounts hr₀.ready.steady.1 hrun
    exact ⟨r₀, g, hr₀, hrun, haccounts, haccounts.complete_iff⟩

theorem operated_pendingSum : Operated .constantFolding pendingSum := by
  have hsum : Operated .constantFolding (left ((Operation.addTerm incrementTerm).run
      (empty .constantFolding))) := Operated.empty.step (.addTerm incrementTerm) trivial
  exact hsum.step (.union 0 1) ⟨by decide +kernel, by decide +kernel⟩

/-- A runner over the constant five, with the built-in rules on signs. -/
def fiveRunner : Runner :=
  after (Runner.seed (.ofTree (.leaf (.const (.int 5)))))
    (.make (Rule.defaultsIn (some ["unary"])) .default .constantFolding)

theorem underway_fiveRunner :
    Underway (Rule.defaultsIn (some ["unary"])) .default .constantFolding fiveRunner := by
  have hok : (success? (Runner.seed (.ofTree (.leaf (.const (.int 5))))
      (.make (Rule.defaultsIn (some ["unary"])) .default .constantFolding))).isSome = true := by
    decide +kernel
  obtain ⟨⟨id, r⟩, hr⟩ := Option.isSome_iff_exists.1 hok
  have hseed := eq_ok_of_success? hr
  rw [fiveRunner, after, hseed]
  exact Underway.make.seed _ hseed

/-- A rebuild that reports nothing finds that one and one are two. -/
theorem exists_rebuild_pendingSum : ∃ g, rebuild pendingSum = .ok 0 g ∧
    pendingSum.unionCount = 1 ∧ g.unionCount = 2 := by
  have hok : (success? (rebuild pendingSum)).map (fun p => (p.1, p.2.unionCount)) = some (0, 2) := by
    decide +kernel
  obtain ⟨⟨joined, g⟩, hsome, hcount⟩ := Option.map_eq_some_iff.1 hok
  simp only [Prod.mk.injEq] at hcount
  obtain ⟨rfl, hcount⟩ := hcount
  exact ⟨g, eq_ok_of_success? hsome, by decide +kernel, hcount⟩

/-- A round that reports nothing puts a plus before the five, and finds that this is five. -/
theorem exists_round_fiveRunner : ∃ it g, saturateOnce fiveRunner.rules fiveRunner.limits.nodes
      fiveRunner.report.iterations.size fiveRunner.egraph = .ok it g ∧
    it.unions = 0 ∧ fiveRunner.egraph.unionCount = 0 ∧ g.unionCount = 1 := by
  have hok : (success? (saturateOnce fiveRunner.rules fiveRunner.limits.nodes
      fiveRunner.report.iterations.size fiveRunner.egraph)).map
        (fun p => (p.1.unions, p.2.unionCount)) = some (0, 1) := by decide +kernel
  obtain ⟨⟨it, g⟩, hsome, hcount⟩ := Option.map_eq_some_iff.1 hok
  simp only [Prod.mk.injEq] at hcount
  exact ⟨it, g, eq_ok_of_success? hsome, hcount.1, by decide +kernel, hcount.2⟩

/-- The rebuild and the round each leave one join out. -/
theorem unions_accounted_silent :
    Operated .constantFolding pendingSum ∧
    (∃ g, rebuild pendingSum = .ok 0 g ∧ pendingSum.Accounts 0 1 g) ∧
    Underway (Rule.defaultsIn (some ["unary"])) .default .constantFolding fiveRunner ∧
    ∃ it g, saturateOnce fiveRunner.rules fiveRunner.limits.nodes
      fiveRunner.report.iterations.size fiveRunner.egraph = .ok it g ∧
      fiveRunner.egraph.Accounts 0 1 g := by
  obtain ⟨hrebuilds, hrounds⟩ := unions_accounted .constantFolding
  obtain ⟨g, hrebuild, -⟩ := exists_rebuild_pendingSum
  obtain ⟨it, g', hround, hunions, -⟩ := exists_round_fiveRunner
  have hfirst : pendingSum.discoveriesRebuilding = 1 := by decide +kernel
  have hsecond : discoveriesInRound fiveRunner.rules fiveRunner.limits.nodes
      fiveRunner.egraph = 1 := by decide +kernel
  have hreported := (hrebuilds _ 0 g operated_pendingSum hrebuild).1
  have hreported' := ((hrounds _ _ _ underway_fiveRunner).1 it g' hround).1
  rw [hfirst] at hreported
  rw [hunions, hsecond] at hreported'
  exact ⟨operated_pendingSum, ⟨g, hrebuild, hreported⟩, underway_fiveRunner, it, g', hround,
    hreported'⟩

/-- Neither rebuilds nor rounds report all joins. -/
theorem not_unions_accounted :
    (¬ ∀ g joined g', Operated .constantFolding g → rebuild g = .ok joined g' →
      g'.unionCount = g.unionCount + joined) ∧
    ¬ ∀ rules limits r it g, Underway rules limits .constantFolding r →
      saturateOnce r.rules r.limits.nodes r.report.iterations.size r.egraph = .ok it g →
      g.unionCount = r.egraph.unionCount + it.unions := by
  constructor
  · intro h
    obtain ⟨g, hrebuild, hcount, hcount'⟩ := exists_rebuild_pendingSum
    have heq := h _ _ _ operated_pendingSum hrebuild
    omega
  · intro h
    obtain ⟨it, g, hround, hunions, hcount, hcount'⟩ := exists_round_fiveRunner
    have heq := h _ _ _ it g underway_fiveRunner hround
    omega

end EqSat
