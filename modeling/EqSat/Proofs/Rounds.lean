import EqSat.Proofs.AnyRules
import EqSat.Proofs.Simplification
import EqSat.Rule.Default

/-!
# Rounds never make a class dearer

In a round classes join, nodes are made canonical and classes of known value are pruned, but
whatever a class represented before, it represents something no larger afterwards.  A class that
holds a term therefore represents a tree at most as large, before the first round and after any
number of them, whatever the rules are.  A run with a lower limit on rounds is the beginning of a
run with a higher one.

    runWithin_grows       the graph of a run only grows
    exists_represents     the classes of a term represent trees no larger than the term's
    simplify_shrinks      the sizes of the root's class along a run
-/

namespace EqSat

open EGraph

variable {g g' : EGraph} {rules : List Rule} {limits : Limits} {t : Term}
  {u : Tree} {root : ClassId}

/-! ## Sizes -/

namespace Term

theorem exists_tree_of_cost? {k : Nat} (h : t.cost? = some k) :
    ∃ u, t.tree? = some u ∧ u.size = k := by
  have hempty : t.isEmpty = false := by
    rw [Bool.eq_false_iff]
    intro hempty
    rw [cost?, root?, if_pos hempty] at h
    cases h
  have htree := tree?_eq t hempty
  rw [cost?_of_tree? htree] at h
  exact ⟨_, htree, Option.some.inj h⟩

/-- Where the nodes of a term are witnessed, their classes represent trees no larger. -/
theorem exists_represents {cls : Nat → ClassId}
    (h : ∀ (i : Nat) (n : Node Nat), t.nodes[i]? = some n → g.Witnessed (n.map cls, cls i))
    (i : Nat) (hi : i < t.size) : ∃ v, g.Represents v (cls i) ∧ v.size ≤ (t.treeAt i).size := by
  induction i using Nat.strong_induction_on with
  | _ i ih =>
    obtain ⟨n, hn⟩ := exists_node hi
    have hex : ∀ c ∈ n.children, ∃ v, g.Represents v (cls c) ∧ v.size ≤ (t.treeAt c).size := by
      intro c hc
      have hlt := lt_of_mem_children hn hc
      exact ih c hlt (Nat.lt_trans hlt hi)
    choose! f hf using hex
    obtain ⟨v, hv, hle⟩ := Witnessed.represents (q := n.map fun c => (f c, cls c))
      (by rw [Node.map_map]; exact h i n hn)
      (Node.forall_mem_children_map.2 fun c hc => (hf c hc).1)
    refine ⟨v, hv, Nat.le_trans hle ?_⟩
    rw [t.steps_treeAt i n hn, Tree.size_ofNode, Tree.size_ofNode, Node.map_map, Node.map_map,
      Node.map_map]
    exact CostFunction.monotone_size.map_le fun c hc => (hf c hc).2

end Term

/-- A rebuilt graph in order, whatever its nodes mean. -/
def InOrder (g : EGraph) : Prop := Tidy g ∧ ∃ o, Valid (anyMeaning .constantFolding) g o

/-- In such a graph the size of a smallest tree is extracted. -/
theorem InOrder.extract_size (h : InOrder g) (hroot : root < g.size) :
    ∃ e u, g.extract .size root = .ok e ∧ e.term.tree? = some u ∧ g.Represents u root ∧
      u.size = e.cost ∧ ∀ v, g.Represents v root → e.cost ≤ v.size := by
  obtain ⟨htidy, o, hvalid⟩ := h
  obtain ⟨e, u, hrun, htree, hrep, hcost, hleast⟩ := extract_cheapest hvalid.grounded htidy.clean
    CostFunction.above_size CostFunction.monotone_size hroot
  rw [CostFunction.tree_size] at hcost
  exact ⟨e, u, hrun, htree, hrep, hcost, fun v hv => CostFunction.tree_size v ▸ hleast v hv⟩

/-- A class that has grown has no larger smallest tree. -/
theorem extract_size_le (h : InOrder g) (h' : InOrder g') (hgrows : Grows g g')
    (hroot : root < g.size) : ∃ e e', g.extract .size root = .ok e ∧
      g'.extract .size root = .ok e' ∧ e'.cost ≤ e.cost := by
  obtain ⟨e, u, hrun, -, hrep, hcost, -⟩ := h.extract_size hroot
  obtain ⟨e', -, hrun', -, -, -, hleast⟩ :=
    h'.extract_size (Nat.lt_of_lt_of_le hroot hgrows.size_le)
  obtain ⟨v, hv, hle⟩ := hgrows.covers hrep
  exact ⟨e, e', hrun, hrun', Nat.le_trans (hleast v hv) (hcost ▸ hle)⟩

/-! ## Runs -/

namespace Runner

variable {r r' : Runner} {reason : StopReason}

/-- A run keeps the graph in order, and lets it grow. -/
theorem runWithin_grows (h : InOrder r.egraph) {n : Nat} (hrun : runWithin n r = .ok reason r') :
    InOrder r'.egraph ∧ Grows r.egraph r'.egraph := by
  obtain ⟨htidy, o, hvalid⟩ := h
  have hsets := sets_anyMeaning r.rules hvalid
  have hproceeds := proceeds_runWithin n hsets .start rfl htidy
  have hfollows := hproceeds.follows
  rw [hrun] at hfollows
  obtain ⟨graphs, -, hhead, hist⟩ := hfollows
  obtain ⟨o', hu⟩ := hsets.upheld hist hhead
  obtain ⟨hvalid', -⟩ := hu.running rfl
  exact ⟨⟨hproceeds.tidy _ _ hrun, o', hvalid'⟩, hu.since.grows hvalid hvalid'⟩

/-- A run begins with a shorter one: it goes on from there, unless that has stopped by itself. -/
theorem runWithin_split (m n : Nat) (hrun : runWithin (m + n) r = .ok reason r') :
    ∃ reason₁ r₁, runWithin m r = .ok reason₁ r₁ ∧ (r₁ = r' ∨ runWithin n r₁ = .ok reason r') := by
  induction m generalizing r with
  | zero => exact ⟨_, r, rfl, .inr (by rwa [Nat.zero_add] at hrun)⟩
  | succ m ih =>
    rw [Nat.succ_add, runWithin_succ] at hrun
    rw [runWithin_succ]
    split at hrun
    · next hfull =>
      cases hrun
      exact ⟨_, _, by rw [if_pos hfull], .inl rfl⟩
    · next hfull =>
      rw [if_neg hfull]
      cases hsat : saturateOnce r.rules r.limits.nodes r.report.iterations.size r.egraph with
      | error e g =>
        rw [hsat] at hrun
        cases hrun
      | ok it g =>
        rw [hsat] at hrun
        dsimp only at hrun ⊢
        split at hrun
        · next hstop =>
          cases hrun
          exact ⟨_, _, by rw [if_pos hstop], .inl rfl⟩
        · next hstop =>
          rw [if_neg hstop]
          exact ih hrun

/-- How many rounds are allowed in all is of no concern to a run of so many. -/
theorem runWithin_limits (n : Nat) {lower : Limits} (h : lower.nodes = r.limits.nodes) :
    runWithin n { r with limits := lower } = match runWithin n r with
      | .ok reason r' => .ok reason { r' with limits := lower }
      | .error e r' => .error e { r' with limits := lower } := by
  induction n generalizing r with
  | zero => rfl
  | succ n ih =>
    rw [runWithin_succ, runWithin_succ]
    dsimp only
    rw [h]
    split
    · rfl
    · cases saturateOnce r.rules r.limits.nodes r.report.iterations.size r.egraph with
      | error e g => rfl
      | ok it g =>
        dsimp only
        split
        · rfl
        · exact ih (r := { r with
            egraph := g
            report := { r.report with iterations := r.report.iterations.push it } }) h

/-- The size of a smallest term of the class after at most `n` rounds. -/
def sizeAfter (r : Runner) (root : ClassId) (n : Nat) : Option Nat :=
  match runWithin n r with
  | .ok _ r' => (r'.egraph.extract .size root).toOption.map (·.cost)
  | .error _ _ => none

theorem sizeAfter_eq {n : Nat} {e : Extracted Nat} (hrun : runWithin n r = .ok reason r')
    (he : r'.egraph.extract .size root = .ok e) : r.sizeAfter root n = some e.cost := by
  rw [sizeAfter, hrun]
  dsimp only
  rw [he]
  rfl

theorem sizeAfter_limits (root : ClassId) (n : Nat) {lower : Limits}
    (h : lower.nodes = r.limits.nodes) :
    sizeAfter { r with limits := lower } root n = r.sizeAfter root n := by
  rw [sizeAfter, sizeAfter, runWithin_limits n h]
  cases runWithin n r <;> rfl

/-- The sizes of smallest terms of the class after up to `rounds` rounds, which never rise. -/
structure Shrinks (r : Runner) (root : ClassId) (rounds : Nat) (size : Nat → Nat) : Prop where
  sizes : ∀ n, n ≤ rounds → r.sizeAfter root n = some (size n)
  falls : ∀ n, n < rounds → size (n + 1) ≤ size n

theorem Shrinks.le {rounds : Nat} {size : Nat → Nat} (h : r.Shrinks root rounds size) {m n : Nat}
    (hmn : m ≤ n) (hn : n ≤ rounds) : size n ≤ size m := by
  induction hmn with
  | refl => exact Nat.le_refl _
  | step _ ih => exact Nat.le_trans (h.falls _ hn) (ih (Nat.le_of_succ_le hn))

theorem Shrinks.eq_of_sizeAfter {rounds : Nat} {size : Nat → Nat}
    (h : r.Shrinks root rounds size) {n k : Nat} (hn : n ≤ rounds)
    (hk : r.sizeAfter root n = some k) : k = size n :=
  Option.some.inj (hk.symm.trans (h.sizes n hn))

/-- One more round is a run that goes on from where the others have led. -/
theorem sizeAfter_succ_le (h : InOrder r.egraph) (hroot : root < r.egraph.size) {n : Nat}
    (hrun : runWithin (n + 1) r = .ok reason r') :
    ∃ a b, r.sizeAfter root n = some a ∧ r.sizeAfter root (n + 1) = some b ∧ b ≤ a := by
  obtain ⟨reason₁, r₁, hrun₁, hrest⟩ := runWithin_split n 1 hrun
  obtain ⟨h₁, hgrows₁⟩ := runWithin_grows h hrun₁
  have hlater : InOrder r'.egraph ∧ Grows r₁.egraph r'.egraph := by
    rcases hrest with rfl | hrest
    · exact ⟨h₁, .refl⟩
    · exact runWithin_grows h₁ hrest
  obtain ⟨e, e', he, he', hle⟩ :=
    extract_size_le h₁ hlater.1 hlater.2 (Nat.lt_of_lt_of_le hroot hgrows₁.size_le)
  exact ⟨_, _, sizeAfter_eq hrun₁ he, sizeAfter_eq hrun he', hle⟩

/-- **Rounds** never make a class dearer, as long as no constants conflict. -/
theorem exists_shrinks (h : InOrder r.egraph) (hroot : root < r.egraph.size) {rounds : Nat}
    (hrun : runWithin rounds r = .ok reason r') : ∃ size, r.Shrinks root rounds size := by
  have hearlier : ∀ n, n ≤ rounds → ∃ reason₁ r₁, runWithin n r = .ok reason₁ r₁ := by
    intro n hn
    rw [← Nat.add_sub_cancel' hn] at hrun
    obtain ⟨reason₁, r₁, hrun₁, -⟩ := runWithin_split n _ hrun
    exact ⟨reason₁, r₁, hrun₁⟩
  refine ⟨fun n => (r.sizeAfter root n).getD 0, fun n hn => ?_, fun n hn => ?_⟩
  · obtain ⟨reason₁, r₁, hrun₁⟩ := hearlier n hn
    obtain ⟨h₁, hgrows₁⟩ := runWithin_grows h hrun₁
    obtain ⟨e, -, he, -⟩ := h₁.extract_size (Nat.lt_of_lt_of_le hroot hgrows₁.size_le)
    rw [sizeAfter_eq hrun₁ he, Option.getD_some]
  · obtain ⟨reason₁, r₁, hrun₁⟩ := hearlier (n + 1) hn
    obtain ⟨a, b, ha, hb, hba⟩ := sizeAfter_succ_le h hroot hrun₁
    rwa [ha, hb, Option.getD_some, Option.getD_some]

end Runner

/-! ## Simplification -/

/-- The class of the root of a term that has been seeded represents a tree no larger. -/
structure Sown (u : Tree) (root : ClassId) (g : EGraph) : Prop where
  inOrder : InOrder g
  lt : root < g.size
  covers : ∃ v, g.Represents v root ∧ v.size ≤ u.size

/-- The runner of a graph that a term has been seeded in, before its first round. -/
def sownRunner (rules : List Rule) (limits : Limits) (root : ClassId) (g : EGraph) : Runner :=
  { Runner.make rules limits .constantFolding with egraph := g, roots := #[root] }

/-- A term is seeded, within any limits, unless constants conflict. -/
theorem seed_cases (rules : List Rule) (ht : t.tree? = some u) :
    (∃ root g, Sown u root g ∧ ∀ limits, Runner.seed t (.make rules limits .constantFolding) =
      .ok (some root) (sownRunner rules limits root g)) ∨
    ∃ e, ∀ limits, ∃ r, Runner.seed t (.make rules limits .constantFolding) = .error e r := by
  obtain ⟨hempty, rfl⟩ := Term.treeAt_of_tree? ht
  have hany : t.Valued (anyMeaning .constantFolding) fun _ => () := fun _ _ _ => trivial
  obtain ⟨root, g, o, hadd, hvalid, hlt, -, -, -, cls, rfl, hstands⟩ := addTerm_spec hany hempty
    ⟨fun _ => .leaf (.const .zero), fun _ => ()⟩
  have hadd' : ∀ limits, addTerm t (Runner.make rules limits .constantFolding).egraph =
      .ok (some (cls (t.size - 1))) g := fun _ => hadd
  rcases rebuild_spec hvalid (fun _ => True) with
    ⟨n, g', o', hreb, hvalid', htidy, hext⟩ | ⟨e, g', o', hreb, -⟩
  · refine .inl ⟨cls (t.size - 1), g', ⟨⟨htidy, o', hvalid'⟩, ?_, ?_⟩, fun limits => ?_⟩
    · exact Nat.lt_of_lt_of_le hlt hext.size_le
    · exact Term.exists_represents (fun i n hn => hvalid'.witnessed (hext.stands (hstands i n hn)))
        _ (Term.size_sub_one_lt hempty)
    · exact Runner.seed_ok (hadd' limits) hreb
  · exact .inr ⟨e, fun limits => ⟨_, Runner.seed_error (hadd' limits) hreb⟩⟩

/-- What is extracted after a run that succeeds has the size of the root's class at its end. -/
theorem simplify_of_run {r r' : Runner} {reason : StopReason}
    (hseed : Runner.seed t (.make rules limits .constantFolding) = .ok (some root) r)
    (hnew : r.report.iterations = #[]) (h : InOrder r.egraph) (hroot : root < r.egraph.size)
    (hrun : Runner.runWithin r.limits.iterations r = .ok reason r') :
    ∃ best m, t.simplify rules limits = .ok best ∧ best.cost? = some m ∧
      r.sizeAfter root r.limits.iterations = some m := by
  obtain ⟨h', hgrows⟩ := Runner.runWithin_grows h hrun
  have hlt := Nat.lt_of_lt_of_le hroot hgrows.size_le
  obtain ⟨e, u, he, htree, -, hcost, -⟩ := h'.extract_size hlt
  have hrun' : Runner.run r = .ok reason
      { r' with report := { r'.report with stopReason := some reason } } := by
    rw [Runner.run_eq, hnew, Array.size_empty, Nat.sub_zero, bind_ok hrun]
    rfl
  have hfind : r'.egraph.extract .size (r'.egraph.find root) = .ok e := by
    obtain ⟨-, o, hvalid⟩ := h'
    rw [← he, extract, extract, find_find hvalid.shape]
  have hsat := saturate_of_seed hseed
  rw [hrun'] at hsat
  exact ⟨e.term, e.cost, simplify_of_saturate hsat hfind, hcost ▸ Term.cost?_of_tree? htree,
    Runner.sizeAfter_eq hrun he⟩

/-- What a simplification finds with a lower limit on rounds has the size of the root's class after
so many rounds of the longer run. -/
theorem simplify_of_lower {r' : Runner} {reason : StopReason} {lower : Limits}
    (hseed : ∀ limits, Runner.seed t (.make rules limits .constantFolding) =
      .ok (some root) (sownRunner rules limits root g))
    (h : InOrder g) (hroot : root < g.size)
    (hrun : Runner.runWithin limits.iterations (sownRunner rules limits root g) = .ok reason r')
    (hnodes : lower.nodes = limits.nodes) (hlower : lower.iterations ≤ limits.iterations) :
    ∃ best m, t.simplify rules lower = .ok best ∧ best.cost? = some m ∧
      (sownRunner rules limits root g).sizeAfter root lower.iterations = some m := by
  -- the shorter run is where the longer one has been
  rw [← Nat.add_sub_cancel' hlower] at hrun
  obtain ⟨reason₁, r₁, hrun₁, -⟩ := Runner.runWithin_split lower.iterations _ hrun
  have hrunlower : Runner.runWithin lower.iterations (sownRunner rules lower root g) = _ :=
    Runner.runWithin_limits (r := sownRunner rules limits root g) lower.iterations hnodes
  rw [hrun₁] at hrunlower
  obtain ⟨best, m, hbest, hm, hsize⟩ := simplify_of_run (hseed lower) rfl h hroot hrunlower
  have hsame : (sownRunner rules lower root g).sizeAfter root lower.iterations = _ :=
    Runner.sizeAfter_limits (r := sownRunner rules limits root g) root lower.iterations hnodes
  exact ⟨best, m, hbest, hm, hsame.symm.trans hsize⟩

/-- A run that fails makes the simplification fail. -/
theorem simplify_of_run_error {r r' : Runner} {e : Conflict}
    (hseed : Runner.seed t (.make rules limits .constantFolding) = .ok (some root) r)
    (hnew : r.report.iterations = #[])
    (hrun : Runner.runWithin r.limits.iterations r = .error e r') :
    t.simplify rules limits = .error (.conflict e) := by
  have hrun' : Runner.run r = .error e r' := by
    rw [Runner.run_eq, hnew, Array.size_empty, Nat.sub_zero, bind_error hrun]
  have hsat := saturate_of_seed hseed
  rw [hrun'] at hsat
  exact simplify_of_saturate_error hsat

/-- **Simplification never makes a term larger.**  Where no constants conflict, the size of the
root's class is at most that of the term before the first round, and never rises from a round to
the next.  So the term that is found is no larger, and with a lower limit on rounds none smaller
would have been found. -/
theorem simplify_shrinks {k : Nat} (rules : List Rule) (limits : Limits) (ht : t.cost? = some k)
    (hno : ∀ e, t.simplify rules limits ≠ .error (.conflict e)) :
    ∃ root r size, Runner.seed t (.make rules limits .constantFolding) = .ok (some root) r ∧
      r.Shrinks root limits.iterations size ∧ size 0 ≤ k ∧
      ∃ best m, t.simplify rules limits = .ok best ∧ best.cost? = some m ∧ m ≤ k ∧
        ∀ lower : Limits, lower.nodes = limits.nodes → lower.iterations ≤ limits.iterations →
          ∃ best' m', t.simplify rules lower = .ok best' ∧ best'.cost? = some m' ∧ m ≤ m' := by
  obtain ⟨u, htree, rfl⟩ := Term.exists_tree_of_cost? ht
  rcases seed_cases rules htree with ⟨root, g, hsown, hseed⟩ | ⟨e, hseed⟩
  · obtain ⟨hg, hroot, v, hv, hle⟩ := hsown
    cases hrun : Runner.runWithin limits.iterations (sownRunner rules limits root g) with
    | error e r' => exact absurd (simplify_of_run_error (hseed limits) rfl hrun) (hno e)
    | ok reason r' =>
      obtain ⟨size, hshrinks⟩ := Runner.exists_shrinks hg hroot hrun
      have hfirst : size 0 ≤ u.size := by
        obtain ⟨e, -, he, -, -, -, hleast⟩ := hg.extract_size hroot
        have hzero : (sownRunner rules limits root g).sizeAfter root 0 = some e.cost :=
          Runner.sizeAfter_eq rfl he
        rw [← hshrinks.eq_of_sizeAfter (Nat.zero_le _) hzero]
        exact Nat.le_trans (hleast v hv) hle
      obtain ⟨best, m, hbest, hm, hsize⟩ :=
        simplify_of_lower hseed hg hroot hrun rfl (Nat.le_refl _)
      obtain rfl := hshrinks.eq_of_sizeAfter (Nat.le_refl _) hsize
      have hlast := Nat.le_trans (hshrinks.le (Nat.zero_le _) (Nat.le_refl _)) hfirst
      refine ⟨root, _, size, hseed limits, hshrinks, hfirst, best, _, hbest, hm, hlast,
        fun lower hnodes hlower => ?_⟩
      obtain ⟨best', m', hbest', hm', hsize'⟩ :=
        simplify_of_lower hseed hg hroot hrun hnodes hlower
      obtain rfl := hshrinks.eq_of_sizeAfter hlower hsize'
      exact ⟨best', _, hbest', hm', hshrinks.le hlower (Nat.le_refl _)⟩
  · obtain ⟨r, hr⟩ := hseed limits
    exact absurd (simplify_of_saturate_error (saturate_of_seed_error hr)) (hno e)

/-- One round swaps the factors of a product, and the next one drops the factor one. -/
theorem simplify_shrinks_product :
    let t := Term.ofTree (.binary .mul (.leaf (.const (.int 1))) (.leaf (.var "x")))
    let rules := Rule.defaultsIn (some ["arithmetic"])
    let one : Limits := ⟨1, 100, by decide, by decide⟩
    let two : Limits := ⟨2, 100, by decide, by decide⟩
    t.cost? = some 3 ∧ (∀ e, t.simplify rules two ≠ .error (.conflict e)) ∧
      (∃ root r size, Runner.seed t (.make rules two .constantFolding) = .ok (some root) r ∧
        r.Shrinks root 2 size ∧ size 0 ≤ 3) ∧
      (∃ best, t.simplify rules two = .ok best ∧ best.cost? = some 1) ∧
      ∃ best', t.simplify rules one = .ok best' ∧ best'.cost? = some 3 := by
  intro t rules one two
  have hcost : t.cost? = some 3 := by decide +kernel
  have htwo : (t.simplify rules two).toOption.bind Term.cost? = some 1 := by decide +kernel
  have hone : (t.simplify rules one).toOption.bind Term.cost? = some 3 := by decide +kernel
  have hno : ∀ e, t.simplify rules two ≠ .error (.conflict e) := by
    intro e he
    rw [he] at htwo
    cases htwo
  obtain ⟨root, r, size, hseed, hshrinks, hfirst, best, m, hbest, -, -, hlower⟩ :=
    simplify_shrinks rules two hcost hno
  obtain ⟨best', m', hbest', -, -⟩ := hlower one rfl (by decide)
  rw [hbest] at htwo
  rw [hbest'] at hone
  exact ⟨hcost, hno, ⟨root, r, size, hseed, hshrinks, hfirst⟩, ⟨best, hbest, htwo⟩,
    best', hbest', hone⟩

end EqSat
