import EqSat.Proofs.EGraph.Enter
import EqSat.Proofs.EGraph.Relist
import EqSat.Proofs.EGraph.Work

/-!
# Joining and settling

A join of two classes either finds them equal, or absorbs one in the other, or is refused
because two different constants meet.  A class whose constant has become known is settled by
a join with the leaf of the constant, which never conflicts.

    merge_spec      a join of classes of one value
    settle_spec     a class is settled, and no work is added
-/

namespace EqSat

/-- The graph that a step leaves behind. -/
def left {α : Type} : EStateM.Result Conflict EGraph α → EGraph
  | .ok _ g => g
  | .error _ g => g

namespace EGraph

variable {D : Type} {I : Meaning D} {g g' g'' : EGraph} {o o' o'' : Origin D} {x y : EClass}
  {a b id : ClassId} {k : Constant}

/-! ## Steps in sequence -/

theorem bind_ok {ε σ α β : Type} {s : EStateM ε σ α} {f : α → EStateM ε σ β} {x y : σ} {r : α}
    (h : s x = .ok r y) : (s >>= f) x = f r y := by
  show EStateM.bind s f x = _
  rw [EStateM.bind, h]

theorem bind_error {ε σ α β : Type} {s : EStateM ε σ α} {f : α → EStateM ε σ β} {x y : σ} {e : ε}
    (h : s x = .error e y) : (s >>= f) x = .error e y := by
  show EStateM.bind s f x = _
  rw [EStateM.bind, h]

/-- Two steps that have succeeded together have succeeded one after the other. -/
theorem bind_eq_ok {ε σ α β : Type} {s : EStateM ε σ α} {f : α → EStateM ε σ β} {x z : σ} {b : β}
    (h : (s >>= f) x = .ok b z) : ∃ a y, s x = .ok a y ∧ f a y = .ok b z := by
  cases hs : s x with
  | ok a y => exact ⟨a, y, rfl, (bind_ok hs).symm.trans h⟩
  | error e y =>
    rw [bind_error hs] at h
    cases h

/-! ## Larger graphs -/

/-- The leaf of a constant. -/
def IsConstant (n : ENode) : Prop := ∃ k, n = .leaf (.const k)

/-- A later graph: ids keep their origin, equal ids stay equal, and the nodes that came to it
are leaves of constants or among the nodes `new`.  Without new nodes there are no new classes. -/
structure Extends (new : ENode → Prop) (g : EGraph) (o : Origin D) (g' : EGraph)
    (o' : Origin D) : Prop where
  analysis : g'.analysis = g.analysis
  size_le : g.size ≤ g'.size
  node : ∀ i, i < g.size → o'.node i = o.node i
  value : ∀ i, i < g.size → o'.value i = o.value i
  find : ∀ a b, g.find a = g.find b → g'.find a = g'.find b
  const : ∀ i k, g.constantAt? i = some k → g'.constantAt? i = some k
  fresh : ∀ i, g.size ≤ i → i < g'.size → IsConstant (o'.node i) ∨ new (o'.node i)
  near : (∀ n, ¬new n) → ∀ i, i < g'.size → ∃ j, j < g.size ∧ g'.find i = g'.find j

variable {new : ENode → Prop}

theorem Extends.refl : Extends new g o g o where
  analysis := rfl
  size_le := Nat.le_refl _
  node := fun _ _ => rfl
  value := fun _ _ => rfl
  find := fun _ _ h => h
  const := fun _ _ h => h
  fresh := fun _ hi hlt => absurd hlt (Nat.not_lt.2 hi)
  near := fun _ i hi => ⟨i, hi, rfl⟩

theorem Extends.trans (h : Extends new g o g' o') (h' : Extends new g' o' g'' o'') :
    Extends new g o g'' o'' where
  analysis := h'.analysis.trans h.analysis
  size_le := Nat.le_trans h.size_le h'.size_le
  node := fun i hi => (h'.node i (Nat.lt_of_lt_of_le hi h.size_le)).trans (h.node i hi)
  value := fun i hi => (h'.value i (Nat.lt_of_lt_of_le hi h.size_le)).trans (h.value i hi)
  find := fun a b hab => h'.find a b (h.find a b hab)
  const := fun i k hk => h'.const i k (h.const i k hk)
  fresh := by
    intro i hi hlt
    by_cases hi' : i < g'.size
    · rw [h'.node i hi']
      exact h.fresh i hi hi'
    · exact h'.fresh i (Nat.le_of_not_lt hi') hlt
  near := by
    intro hnew i hi
    obtain ⟨j, hj, hij⟩ := h'.near hnew i hi
    obtain ⟨l, hl, hjl⟩ := h.near hnew j hj
    exact ⟨l, hl, hij.trans (h'.find j l hjl)⟩

theorem Extends.mono {new' : ENode → Prop} (h : Extends new g o g' o')
    (hnew : ∀ n, new n → new' n) : Extends new' g o g' o' where
  analysis := h.analysis
  size_le := h.size_le
  node := h.node
  value := h.value
  find := h.find
  const := h.const
  fresh := fun i hi hlt => (h.fresh i hi hlt).imp_right (hnew _)
  near := fun hnone => h.near fun n hn => hnone n (hnew n hn)

/-- Nodes that have become equal stay so when ids do. -/
theorem canonicalize_eq_of_find (h : ∀ a b, g.find a = g.find b → g'.find a = g'.find b)
    {m n : ENode} (hmn : g.canonicalize m = g.canonicalize n) :
    g'.canonicalize m = g'.canonicalize n := by
  obtain ⟨houtline, hchild⟩ := Node.map_eq_map_iff.1 hmn
  exact Node.map_eq_map_iff.2 ⟨houtline, fun c hc => h _ _ (hchild c hc)⟩

theorem Extends.same (h : Extends new g o g' o') {u v : Usage} (huv : g.Same u v) : g'.Same u v :=
  ⟨canonicalize_eq_of_find h.find huv.1, h.find _ _ huv.2⟩

theorem Extends.stands (h : Extends new g o g' o') {u : Usage} (hu : g.Stands o u) :
    g'.Stands o' u := by
  obtain ⟨i, hi, hui⟩ := hu
  refine ⟨i, Nat.lt_of_lt_of_le hi h.size_le, ?_⟩
  rw [h.node i hi]
  exact h.same hui

/-- The later graph extends the earlier one also under the later origin. -/
theorem Extends.rebase (h : Extends new g o g' o') : Extends new g o' g' o' where
  analysis := h.analysis
  size_le := h.size_le
  node := fun _ _ => rfl
  value := fun _ _ => rfl
  find := h.find
  const := h.const
  fresh := h.fresh
  near := h.near

/-- The earlier graph is lawful under the later origin. -/
theorem Lawful.rebase (hl : Lawful I g o) (h : Extends new g o g' o') : Lawful I g o' where
  shape := hl.shape
  founded := by
    have hstands : ∀ u, g.Stands o u → g.Stands o' u := by
      rintro u ⟨i, hi, hui⟩
      exact ⟨i, hi, by rw [h.node i hi]; exact hui⟩
    refine ⟨?_, fun n id hn => hstands _ (hl.founded.memo n id hn),
      fun id c hc n hn => hstands _ (hl.founded.nodes id c hc n hn),
      fun id c hc u hu => hstands _ (hl.founded.parents id c hc u hu),
      fun u hu => hstands _ (hl.founded.pending u hu),
      fun u hu => hstands _ (hl.founded.foldPending u hu)⟩
    intro i hi
    rw [h.node i hi]
    exact hl.founded.child_lt i hi
  sound := by
    refine ⟨hl.sound.analysis, ?_, ?_, ?_⟩
    · intro i hi
      have hchild : ∀ a ∈ (o.node i).children, o'.value a = o.value a := fun a ha =>
        h.value a (Nat.lt_trans (hl.founded.child_lt i hi a ha) hi)
      rw [h.node i hi, h.value i hi, Node.map_congr hchild]
      exact hl.sound.holds i hi
    · intro i hi
      rw [h.value i hi, h.value _ (find_lt hl.shape hi), hl.sound.value_find i hi]
    · intro i k hk
      rw [h.value i (lt_of_constantAt hl.shape hk)]
      exact hl.sound.value_const i k hk

theorem extends_enter {n : ENode} {d : D} (hs : g.Shape) (hn : new n) :
    Extends new g o (g.enter n) (o.extend g.size n d) where
  analysis := rfl
  size_le := Nat.le_of_lt size_lt_enter
  node := fun i hi => Origin.node_extend_of_lt hi
  value := fun i hi => Origin.value_extend_of_lt hi
  find := by
    intro a b hab
    rw [find_enter hs, find_enter hs, hab]
  const := by
    intro i k hk
    rw [constantAt_enter_of_lt hs (lt_of_constantAt hs hk)]
    exact hk
  fresh := by
    intro i hi hlt
    rcases lt_or_eq_of_lt_size_enter hlt with hlt | rfl
    · exact absurd hlt (Nat.not_lt.2 hi)
    · rw [Origin.node_extend_self]
      exact Or.inr hn
  near := fun hnone => absurd hn (hnone n)

theorem extends_absorb {k : Option Constant} (hs : g.Shape) (hxy : g.Apart x y)
    (hk : mergeConstants x.data y.data = .ok k) :
    Extends new g o (g.absorb x.id y k) o where
  analysis := rfl
  size_le := Nat.le_of_eq size_absorb.symm
  node := fun _ _ => rfl
  value := fun _ _ => rfl
  find := fun a b hab => find_absorb_of_eq hs hxy hab
  const := fun i l hl => constantAt_absorb_of_eq hs hxy hk hl
  fresh := by
    intro i hi hlt
    rw [size_absorb] at hlt
    exact absurd hlt (Nat.not_lt.2 hi)
  near := fun _ i hi => ⟨i, by rw [size_absorb] at hi; exact hi, rfl⟩

theorem extends_relisted (h : Relisted g g') : Extends new g o g' o where
  analysis := h.analysis
  size_le := Nat.le_of_eq h.size_eq.symm
  node := fun _ _ => rfl
  value := fun _ _ => rfl
  find := by
    intro a b hab
    rw [h.find_eq, h.find_eq, hab]
  const := by
    intro i k hk
    rw [h.constantAt_eq]
    exact hk
  fresh := by
    intro i hi hlt
    rw [h.size_eq] at hlt
    exact absurd hlt (Nat.not_lt.2 hi)
  near := fun _ i hi => ⟨i, by rw [h.size_eq] at hi; exact hi, rfl⟩

/-- The leaf of a constant does not count as a new node, where its class is an old one. -/
theorem Extends.of_const (h : Extends (· = .leaf (.const k)) g o g' o')
    (hnear : ∀ i, i < g'.size → ∃ j, j < g.size ∧ g'.find i = g'.find j) :
    Extends new g o g' o' where
  analysis := h.analysis
  size_le := h.size_le
  node := h.node
  value := h.value
  find := h.find
  const := h.const
  fresh := fun i hi hlt => Or.inl ((h.fresh i hi hlt).elim id fun hk => ⟨k, hk⟩)
  near := fun _ => hnear

/-! ## Joining -/

/-- What a join does to two classes that it has looked up. -/
theorem mergeInto_cases (x y : EClass) (g : EGraph) :
    (∃ k, mergeConstants x.data y.data = .ok k ∧
      mergeInto x y g = .ok true (g.absorb x.id y k)) ∨
    ∃ l r, x.data = some l ∧ y.data = some r ∧ l ≠ r ∧
      mergeInto x y g = .error ⟨l, r, x.id, y.id⟩ g := by
  unfold mergeInto
  cases hk : mergeConstants x.data y.data with
  | ok k => exact Or.inl ⟨k, rfl, rfl⟩
  | error lr =>
    obtain ⟨l, r⟩ := lr
    obtain ⟨hl, hr, hne⟩ := mergeConstants_eq_error.1 hk
    exact Or.inr ⟨l, r, hl, hr, hne, rfl⟩

theorem merge_eq (a b : ClassId) (g : EGraph) : merge a b g =
    (match g.classAt? a, g.classAt? b with
    | some x, some y =>
      if x.id = y.id then return false
      else if x.parents.size < y.parents.size then mergeInto y x
      else mergeInto x y
    | _, _ => return false : Update Bool) g := rfl

/-- The classes are those of the two ids, in one order or the other. -/
def Sides (g : EGraph) (x y : EClass) (a b : ClassId) : Prop :=
  (x.id = g.find a ∧ y.id = g.find b) ∨ (x.id = g.find b ∧ y.id = g.find a)

/-- A join of two ids looks up their classes; the one with fewer parents is to be lost. -/
theorem merge_cases (hs : g.Shape) (ha : a < g.size) (hb : b < g.size) :
    (g.find a = g.find b ∧ merge a b g = .ok false g) ∨
    ∃ x y, g.Apart x y ∧ y.parents.size ≤ x.parents.size ∧
      g.Sides x y a b ∧ merge a b g = mergeInto x y g := by
  obtain ⟨x, hx, hxid⟩ := exists_classAt hs ha
  obtain ⟨y, hy, hyid⟩ := exists_classAt hs hb
  rw [merge_eq, hx, hy]
  dsimp only
  by_cases hne : x.id = y.id
  · rw [if_pos hne]
    exact Or.inl ⟨by rw [← hxid, ← hyid, hne], rfl⟩
  · have hapart : g.Apart x y := ⟨hxid ▸ hx, hyid ▸ hy, hne⟩
    rw [if_neg hne]
    right
    by_cases hlt : x.parents.size < y.parents.size
    · rw [if_pos hlt]
      exact ⟨y, x, hapart.symm, Nat.le_of_lt hlt, Or.inr ⟨hyid, hxid⟩, rfl⟩
    · rw [if_neg hlt]
      exact ⟨x, y, hapart, Nat.le_of_not_lt hlt, Or.inl ⟨hxid, hyid⟩, rfl⟩

/-- The memo finds every entered node, or finds it in the class of `b` where it is in the class
of `a`; otherwise its repair is due. -/
def KnownUpTo (g : EGraph) (o : Origin D) (a b : ClassId) : Prop :=
  ∀ i, i < g.size → (∃ j, g.memo[g.canonicalize (o.node i)]? = some j ∧
    (g.find j = g.find i ∨ (g.find j = g.find b ∧ g.find i = g.find a))) ∨
    g.AwaitsRepair (o.node i, i)

theorem Known.upTo (h : g.Known o) (a b : ClassId) : g.KnownUpTo o a b := fun i hi =>
  (h i hi).imp_left fun ⟨j, hj, hji⟩ => ⟨j, hj, Or.inl hji⟩

/-- What a join of `a` and `b` makes of a graph. -/
structure Joined (I : Meaning D) (g : EGraph) (o : Origin D) (a b : ClassId) (g' : EGraph) :
    Prop where
  core : Core I g' o
  known : g'.Known o
  extended : ∀ new, Extends new g o g' o
  memo : g'.memo = g.memo
  unchanged : g.find a = g.find b → g' = g
  find_eq : g'.find a = g'.find b
  settled : ∀ p, g.SettledBut p → (∀ id, p id → id = g.find a ∨ id = g.find b) →
    g'.SettledBut (· = g'.find a)
  work_le : g'.work ≤ g.work
  work_add_le : ∀ c, g.classAt? b = some c → g.find a ≠ g.find b →
    g.constantAt? a = g.constantAt? b → g'.work + 2 * (2 * g.usages + 1) ≤ g.work + c.parents.size

/-- Classes that are equal already need no join. -/
theorem joined_of_find_eq (h : Core I g o) (hab : g.find a = g.find b)
    (hknown : g.KnownUpTo o a b) : Joined I g o a b g where
  core := h
  known := by
    intro i hi
    refine (hknown i hi).imp_left ?_
    rintro ⟨j, hj, hji | ⟨hjb, hia⟩⟩
    · exact ⟨j, hj, hji⟩
    · exact ⟨j, hj, by rw [hjb, hia, hab]⟩
  extended := fun _ => .refl
  memo := rfl
  unchanged := fun _ => rfl
  find_eq := hab
  settled := by
    intro p hp hpab
    refine settledBut_mono hp fun id hid => ?_
    rcases hpab id hid with h | h
    · exact h
    · rw [h, hab]
  work_le := Nat.le_refl _
  work_add_le := fun c _ hne => absurd hab hne

theorem Sides.find_ne (hxy : g.Apart x y) (hab : g.Sides x y a b) :
    g.find a ≠ g.find b := by
  have hne := hxy.ne
  rcases hab with ⟨hx, hy⟩ | ⟨hx, hy⟩
  · rwa [hx, hy] at hne
  · rw [hx, hy] at hne
    exact hne.symm

/-- What the two classes are known to equal, the two ids are. -/
theorem Sides.constants {l r : Constant} (hs : g.Shape) (hxy : g.Apart x y)
    (hab : g.Sides x y a b) (hl : x.data = some l) (hr : y.data = some r) :
    (g.constantAt? a = some l ∧ g.constantAt? b = some r) ∨
      (g.constantAt? a = some r ∧ g.constantAt? b = some l) := by
  have hcx := (constantAt_of_stored hs hxy.left).trans hl
  have hcy := (constantAt_of_stored hs hxy.right).trans hr
  rcases hab with ⟨hx, hy⟩ | ⟨hx, hy⟩ <;>
    rw [hx, constantAt_find hs] at hcx <;> rw [hy, constantAt_find hs] at hcy
  · exact Or.inl ⟨hcx, hcy⟩
  · exact Or.inr ⟨hcy, hcx⟩

/-- A join makes its ids equal. -/
theorem Sides.find_absorb_eq {k : Option Constant} (hs : g.Shape) (hxy : g.Apart x y)
    (hab : g.Sides x y a b) : (g.absorb x.id y k).find a = (g.absorb x.id y k).find b := by
  refine (find_absorb_eq_iff hs hxy).2 (Or.inr ?_)
  rcases hab with ⟨hx, hy⟩ | ⟨hx, hy⟩
  · exact Or.inl ⟨hx.symm, hy.symm⟩
  · exact Or.inr ⟨hy.symm, hx.symm⟩

theorem Sides.find_absorb_left {k : Option Constant} (hs : g.Shape) (hxy : g.Apart x y)
    (hab : g.Sides x y a b) : (g.absorb x.id y k).find a = x.id := by
  rw [find_absorb hs hxy]
  rcases hab with ⟨hx, hy⟩ | ⟨hx, hy⟩
  · rw [← hx, if_neg hxy.ne]
  · rw [← hy, if_pos rfl]

/-- If only the two classes of a join were to be settled, it is the joined one that is. -/
theorem Sides.settledBut {k : Option Constant} {p : ClassId → Prop} (hs : g.Shape)
    (hxy : g.Apart x y) (hab : g.Sides x y a b) (hp : g.SettledBut p)
    (hpab : ∀ id, p id → id = g.find a ∨ id = g.find b) :
    (g.absorb x.id y k).SettledBut (· = (g.absorb x.id y k).find a) := by
  rw [hab.find_absorb_left hs hxy]
  refine settledBut_mono (settledBut_absorb hs hxy hp) fun id hid => ?_
  rcases hid with ⟨hpid, hne⟩ | hid
  · rcases hab with ⟨hx, hy⟩ | ⟨hx, hy⟩ <;> rcases hpab id hpid with hid | hid
    · rw [hx, hid]
    · exact absurd (hid.trans hy.symm) hne
    · exact absurd (hid.trans hy.symm) hne
    · rw [hx, hid]
  · exact hid

/-- The two classes know what the two ids are known to equal. -/
theorem Sides.data_eq (hs : g.Shape) (hxy : g.Apart x y) (hab : g.Sides x y a b)
    (hconst : g.constantAt? a = g.constantAt? b) : x.data = y.data := by
  rw [← constantAt_of_stored hs hxy.left, ← constantAt_of_stored hs hxy.right]
  rcases hab with ⟨hx, hy⟩ | ⟨hx, hy⟩ <;>
    rw [hx, hy, constantAt_find hs, constantAt_find hs, hconst]

/-- A join of classes that know the same gives back more work than the usages of one of them. -/
theorem Sides.work_add_le {k : Option Constant} {c : EClass} (hs : g.Shape) (hxy : g.Apart x y)
    (hab : g.Sides x y a b) (hsize : y.parents.size ≤ x.parents.size)
    (hk : mergeConstants x.data y.data = .ok k) (hc : g.classAt? b = some c)
    (hconst : g.constantAt? a = g.constantAt? b) :
    (g.absorb x.id y k).work + 2 * (2 * g.usages + 1) ≤ g.work + c.parents.size := by
  have hdata : x.data = y.data := hab.data_eq hs hxy hconst
  have hkx : k = x.data := by
    refine mergeConstants_self (hk ▸ ?_)
    rw [← hdata]
  have hcy : y.parents.size ≤ c.parents.size := by
    rcases hab with ⟨hx, hy⟩ | ⟨hx, hy⟩
    · rw [classAt_of_find_eq hxy.right hy.symm hc]
    · rw [classAt_of_find_eq hxy.left hx.symm hc]
      exact hsize
  have hle := work_absorb_le hxy hk
  rw [if_pos hkx, if_pos (hkx.trans hdata)] at hle
  omega

theorem joined_absorb {k : Option Constant} (h : Core I g o) (hxy : g.Apart x y)
    (hsize : y.parents.size ≤ x.parents.size) (hab : g.Sides x y a b)
    (hk : mergeConstants x.data y.data = .ok k) (hv : o.value x.id = o.value y.id)
    (hknown : g.KnownUpTo o a b) : Joined I g o a b (g.absorb x.id y k) where
  core := core_absorb h hxy hk hv
  known := by
    have hfind : (g.absorb x.id y k).find a = (g.absorb x.id y k).find b :=
      hab.find_absorb_eq h.shape hxy
    refine known_absorb h hxy fun i hi => (hknown i hi).imp_left ?_
    rintro ⟨j, hj, hji | ⟨hjb, hia⟩⟩
    · exact ⟨j, hj, find_absorb_of_eq h.shape hxy hji⟩
    · refine ⟨j, hj, (find_absorb_of_eq h.shape hxy hjb).trans ?_⟩
      rw [← hfind, find_absorb_of_eq h.shape hxy hia]
  extended := fun _ => extends_absorb h.shape hxy hk
  memo := rfl
  unchanged := fun hfind => absurd hfind (hab.find_ne hxy)
  find_eq := hab.find_absorb_eq h.shape hxy
  settled := fun _ hp hpab => hab.settledBut h.shape hxy hp hpab
  work_le := Nat.le_of_lt (work_absorb_lt hxy hk)
  work_add_le := fun _ hc _ hconst => hab.work_add_le h.shape hxy hsize hk hc hconst

/-- **A join** of two ids of one value succeeds, or two different constants of one value meet
and nothing has changed. -/
theorem merge_spec (h : Core I g o) (ha : a < g.size) (hb : b < g.size)
    (hv : o.value a = o.value b) (hknown : g.KnownUpTo o a b) :
    (∃ g', merge a b g = .ok (decide (g.find a ≠ g.find b)) g' ∧ Joined I g o a b g') ∨
    ∃ e, merge a b g = .error e g ∧ g.find a ≠ g.find b ∧ e.left ≠ e.right ∧
      I.const e.left = I.const e.right ∧
      ((g.constantAt? a = some e.left ∧ g.constantAt? b = some e.right) ∨
        (g.constantAt? a = some e.right ∧ g.constantAt? b = some e.left)) := by
  rcases merge_cases h.shape ha hb with ⟨hab, hm⟩ | ⟨x, y, hxy, hsize, hab, hm⟩
  · exact Or.inl ⟨g, by rw [hm]; simp [hab], joined_of_find_eq h hab hknown⟩
  · have hvxy : o.value x.id = o.value y.id := by
      rcases hab with ⟨hx, hy⟩ | ⟨hx, hy⟩ <;>
        rw [hx, hy, h.sound.value_find a ha, h.sound.value_find b hb, hv]
    have hne : g.find a ≠ g.find b := hab.find_ne hxy
    rcases mergeInto_cases x y g with ⟨k, hk, hmk⟩ | ⟨l, r, hl, hr, hlr, hmk⟩
    · exact Or.inl ⟨_, by rw [hm, hmk]; simp [hne], joined_absorb h hxy hsize hab hk hvxy hknown⟩
    · refine Or.inr ⟨_, by rw [hm, hmk], hne, hlr, ?_, hab.constants h.shape hxy hl hr⟩
      rw [← h.sound.value_const _ _ ((constantAt_of_stored h.shape hxy.left).trans hl),
        ← h.sound.value_const _ _ ((constantAt_of_stored h.shape hxy.right).trans hr), hvxy]

/-- Classes of one known constant are joined without a conflict. -/
theorem merge_const_spec (h : Core I g o) (hknown : g.Known o) (ha : a < g.size) (hb : b < g.size)
    (hak : g.constantAt? a = some k) (hbk : g.constantAt? b = some k) :
    ∃ g', merge a b g = .ok (decide (g.find a ≠ g.find b)) g' ∧ Joined I g o a b g' := by
  have hv : o.value a = o.value b := by
    rw [h.sound.value_const _ _ hak, h.sound.value_const _ _ hbk]
  refine (merge_spec h ha hb hv (hknown.upTo a b)).resolve_right ?_
  rintro ⟨e, -, -, hne, -, hdata⟩
  rw [hak, hbk] at hdata
  simp only [Option.some.injEq] at hdata
  rcases hdata with ⟨hl, hr⟩ | ⟨hr, hl⟩
  · exact hne (hl.symm.trans hr)
  · exact hne (hl.symm.trans hr)

/-! ## Settling -/

/-- The class `j` holds the leaf of `k`, in a graph that may have grown by that leaf. -/
structure Interned (I : Meaning D) (g : EGraph) (o : Origin D) (k : Constant) (j : ClassId)
    (g' : EGraph) (o' : Origin D) : Prop where
  core : Core I g' o'
  known : g'.Known o'
  extended : Extends (· = .leaf (.const k)) g o g' o'
  near : ∀ i, i < g'.size → i < g.size ∨ i = j
  find_eq : ∀ x, g'.find x = g.find x
  lt : j < g'.size
  const : g'.constantAt? j = some k
  memo : ∃ i, g'.memo[(Node.leaf (.const k) : ENode)]? = some i ∧ g'.find i = g'.find j
  settled : ∀ p, g.SettledBut p → g'.SettledBut fun id => p id ∨ id = g'.find j
  work : g' = g ∨ (g.size ≤ j ∧ g'.find j = j ∧ g'.work = g.work + 2 * (2 * g'.usages + 1) ∧
    ∃ c, g'.classAt? j = some c ∧ c.parents.size = 0)

/-- The leaf that the memo has for a constant stands in a class known to be that constant. -/
theorem exists_of_memo_const (h : Core I g o) {j : ClassId}
    (hj : g.memo[(Node.leaf (.const k) : ENode)]? = some j) :
    ∃ i, i < g.size ∧ o.node i = .leaf (.const k) ∧ g.find j = g.find i := by
  obtain ⟨i, hi, hn, hf⟩ := h.founded.memo _ _ hj
  refine ⟨i, hi, ?_, hf⟩
  change (Node.leaf (.const k) : ENode) = (o.node i).map g.find at hn
  cases hni : o.node i <;> rw [hni] at hn <;> simp only [Node.map, reduceCtorEq] at hn
  rw [hn]

theorem work_enter_const (ha : g.analysis = .constantFolding) :
    (g.enter (.leaf (.const k))).work =
      g.work + 2 * (2 * (g.enter (.leaf (.const k))).usages + 1) := by
  have husages : (g.enter (.leaf (.const k))).usages = g.usages := by
    unfold usages
    rw [total_enter_leaf]
    rfl
  have hfold : g.foldNode (.leaf (.const k)) = some k := by
    rw [foldNode, ha]
    rfl
  have hcredit : (g.enter (.leaf (.const k))).total credit = g.total credit + 2 := by
    rw [total_enter_leaf, hfold]
    rfl
  rw [work_eq, work_eq, husages, hcredit, Nat.add_mul]
  show _ + g.pending.length + g.foldPending.length = _
  omega

theorem intern_eq (n : ENode) (g : EGraph) : intern n g =
    (match g.memo[n]? with
    | some id => return g.find id
    | none => do
      set (g.enter n)
      return g.links.size : Update ClassId) g := rfl

theorem intern_const_spec (h : Core I g o) (hknown : g.Known o)
    (ha : g.analysis = .constantFolding) (k : Constant) :
    ∃ j g' o', intern (.leaf (.const k)) g = .ok j g' ∧ Interned I g o k j g' o' := by
  cases hj : g.memo[(Node.leaf (.const k) : ENode)]? with
  | some j =>
    refine ⟨g.find j, g, o, ?_, ?_⟩
    · rw [intern_eq, hj]
      rfl
    · obtain ⟨i, hi, hn, hf⟩ := exists_of_memo_const h hj
      refine ⟨h, hknown, .refl, fun _ => Or.inl, fun _ => rfl, ?_, ?_,
        ⟨j, hj, (find_find h.shape j).symm⟩, ?_, Or.inl rfl⟩
      · rw [hf]
        exact find_lt h.shape hi
      · rw [constantAt_find h.shape, constantAt_of_find_eq hf]
        exact h.complete.const ha i hi k hn
      · exact fun p hp => settledBut_mono hp fun _ => Or.inl
  | none =>
    have hfresh : g.Fresh (.leaf (.const k)) := ⟨rfl, by simp [Node.children], hj⟩
    have hcore := core_enter h hfresh (I.holds_const k)
    have hclass := stored_enter_size h.shape hfresh.child_lt
    have hfind : (g.enter (.leaf (.const k))).find g.size = g.size := find_enter_size h.shape
    refine ⟨g.size, g.enter (.leaf (.const k)), o.extend g.size (.leaf (.const k)) (I.const k),
      ?_, hcore, known_enter h.shape hknown hfresh, ?_, fun _ => lt_or_eq_of_lt_size_enter,
      find_enter h.shape, ?_, ?_, ?_, ?_, Or.inr ?_⟩
    · rw [intern_eq, hj]
      rfl
    · exact extends_enter h.shape rfl
    · exact size_lt_enter
    · rw [constantAt_enter_size h.shape hfresh.child_lt, foldNode, ha]
      rfl
    · exact ⟨g.size, by rw [memo_enter, if_pos rfl], rfl⟩
    · intro p hp
      rw [hfind]
      exact settledBut_enter h.shape hj hp
    · exact ⟨Nat.le_refl _, hfind, work_enter_const ha, _,
        classAt_of_stored hcore.shape hclass, rfl⟩

theorem work_prune {c : EClass} (hc : g.stored? id = some c) :
    (g.modifyClass id EClass.prune).work = g.work := by
  have hcredit := total_modifyClass (f := credit) hc EClass.prune
  have husages := total_modifyClass (f := (·.parents.size)) hc EClass.prune
  have hsame : credit c.prune = credit c := rfl
  have hparents : c.prune.parents.size = c.parents.size := rfl
  rw [work_eq, work_eq]
  show _ * (2 * total _ _ + 1) + g.pending.length + g.foldPending.length = _
  unfold usages
  rw [show (g.modifyClass id EClass.prune).total credit = g.total credit by omega,
    show (g.modifyClass id EClass.prune).total (·.parents.size) = g.total (·.parents.size) by
      simp only [hparents] at husages
      omega]

/-- A class that holds the leaf of its constant is settled by pruning it. -/
theorem settled_prune {c : EClass} (hs : g.SettledBut (· = id)) (hc : g.stored? id = some c)
    (hk : c.data = some k)
    (hmemo : ∃ i, g.memo[(Node.leaf (.const k) : ENode)]? = some i ∧ g.find i = id)
    (hleaf : .leaf (.const k) ∈ c.nodes) : (g.modifyClass id EClass.prune).Settled := by
  have hr := relisted_prune (g := g) hc (by simp [hk])
  intro j d l _ hd hl
  by_cases hj : j = id
  · subst hj
    rw [stored_modifyClass, if_pos rfl, hc] at hd
    cases hd
    obtain rfl : k = l := Option.some.inj (hk.symm.trans hl)
    obtain ⟨i, hi, hij⟩ := hmemo
    exact ⟨⟨i, hi, by rw [hr.find_eq, hij]⟩, Array.mem_filter.2 ⟨hleaf, rfl⟩,
      fun n hn => (Array.mem_filter.1 hn).2⟩
  · obtain ⟨d', hd', hlist⟩ := hr.back j d hd
    rw [hlist.data] at hl
    exact hr.settledAt hlist (hs j d' l hj hd' hl)

theorem valid_prune {c : EClass} (h : Core I g o) (hknown : g.Known o)
    (hs : g.SettledBut (· = id)) (hc : g.stored? id = some c) (hk : c.data = some k)
    (hmemo : ∃ i, g.memo[(Node.leaf (.const k) : ENode)]? = some i ∧ g.find i = id) :
    Valid I (g.modifyClass id EClass.prune) o := by
  have hr := relisted_prune (g := g) hc (by simp [hk])
  refine ⟨core_relisted hr h, hr.known hknown, settled_prune hs hc hk hmemo ?_⟩
  -- the class lists the leaf, which was entered
  obtain ⟨i, hi, hij⟩ := hmemo
  obtain ⟨e, he, hen, hf⟩ := exists_of_memo_const h hi
  obtain ⟨d, hd, hleaf⟩ := h.complete.listed e he
  rw [classAt?, ← hf, hij, hc] at hd
  cases hd
  rw [hen] at hleaf
  rcases hleaf with ⟨-, hno⟩ | ⟨n, hn, hnk⟩
  · cases hno
  · cases n <;> simp only [canonicalize, Node.map, reduceCtorEq] at hnk
    rwa [hnk] at hn

theorem settle_eq (id : ClassId) (g : EGraph) : settle id g =
    (match g.constantAt? id with
    | none => return ()
    | some c => do
      let leaf ← intern (.leaf (.const c))
      let _ ← merge id leaf
      modify fun g => g.modifyClass (g.find id) EClass.prune : Update Unit) g := rfl

/-- **Settling** a class never fails, mends the graph, and adds no work. -/
theorem settle_spec (h : Core I g o) (hknown : g.Known o) (hs : g.SettledBut (· = g.find id))
    (hid : id < g.size) :
    ∃ g' o', settle id g = .ok () g' ∧ Valid I g' o' ∧ (∀ new, Extends new g o g' o') ∧
      g'.work ≤ g.work := by
  have hrun := settle_eq id g
  cases hk : g.constantAt? id with
  | none =>
    rw [hk] at hrun
    refine ⟨g, o, hrun, ⟨h, hknown, ?_⟩, fun _ => .refl, Nat.le_refl _⟩
    intro j c k _ hc hck
    refine hs j c k ?_ hc hck
    rintro rfl
    rw [← constantAt_find h.shape, constantAt_of_stored h.shape hc, hck] at hk
    cases hk
  | some k =>
    rw [hk] at hrun
    have ha : g.analysis = .constantFolding := by
      cases hana : g.analysis with
      | constantFolding => rfl
      | empty =>
        rw [h.complete.unknown hana id] at hk
        cases hk
    obtain ⟨j, g₁, o₁, hintern, hi⟩ := intern_const_spec h hknown ha k
    have hid₁ : id < g₁.size := Nat.lt_of_lt_of_le hid hi.extended.size_le
    have hconst : g₁.constantAt? id = some k := hi.extended.const id k hk
    obtain ⟨g₂, hmerge, hm⟩ := merge_const_spec hi.core hi.known hid₁ hi.lt hconst hi.const
    have hext : ∀ new, Extends new g o g₂ o₁ := by
      refine fun new => (hi.extended.trans (hm.extended _)).of_const fun i hi₂ => ?_
      obtain ⟨j', hj', hij⟩ := (hm.extended fun _ => False).near (fun _ hf => hf) i hi₂
      rcases hi.near j' hj' with hlt | rfl
      · exact ⟨j', hlt, hij⟩
      · exact ⟨id, hid, hij.trans hm.find_eq.symm⟩
    -- the joined class, before it is pruned
    obtain ⟨c, hc⟩ := exists_stored hm.core.shape
      (Nat.lt_of_lt_of_le hid (hext fun _ => False).size_le)
    have hck : c.data = some k := by
      rw [← constantAt_of_stored hm.core.shape hc, constantAt_find hm.core.shape]
      exact (hext fun _ => False).const id k hk
    have hmemo : ∃ i, g₂.memo[(Node.leaf (.const k) : ENode)]? = some i ∧
        g₂.find i = g₂.find id := by
      obtain ⟨i, hi₁, hij⟩ := hi.memo
      refine ⟨i, by rw [hm.memo]; exact hi₁, ?_⟩
      rw [hm.find_eq]
      exact (hm.extended fun _ => False).find _ _ hij
    have hsettled : g₂.SettledBut (· = g₂.find id) := by
      refine hm.settled _ (hi.settled _ hs) fun i hi' => hi'.imp_left fun e => ?_
      rw [e, hi.find_eq]
    have hne : c.data ≠ none := by simp [hck]
    refine ⟨g₂.modifyClass (g₂.find id) EClass.prune, o₁, ?_,
      valid_prune hm.core hm.known hsettled hc hck hmemo,
      fun new => (hext new).trans (extends_relisted (relisted_prune hc hne)), ?_⟩
    · rw [hrun]
      show (intern (.leaf (.const k)) >>= _) g = _
      rw [bind_ok hintern, bind_ok hmerge]
      rfl
    · rw [work_prune hc]
      rcases hi.work with rfl | ⟨hj, hjj, hwork, d, hd, hd0⟩
      · exact hm.work_le
      · have hlt : g₁.find id ≠ g₁.find j := by
          rw [hi.find_eq, hjj]
          exact Nat.ne_of_lt (Nat.lt_of_lt_of_le (find_lt h.shape hid) hj)
        have hle := hm.work_add_le d hd hlt (hconst.trans hi.const.symm)
        omega

end EGraph

end EqSat
