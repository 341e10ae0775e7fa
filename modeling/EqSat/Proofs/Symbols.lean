import EqSat.Proofs.AnyRules
import EqSat.Proofs.Saturated
import EqSat.Proofs.Simplification

/-!
# Where symbols come from

A graph holds nodes of the seed, nodes that a rule has built, and leaves of constants.  Merging
classes makes none and pruning only drops some, so every head that is extracted is that of a
constant, of a node of the seed or of a right side.  A variable symbol is a head.

    supplied_of_simplify     where the heads of a result come from
    symbols_default          the built-in rules name no symbols
    simplify_symbols         where the symbols of a result come from
-/

namespace EqSat

open EGraph

variable {g g' : EGraph} {o o' : Origin Unit} {rules : List Rule} {limits : Limits} {t best : Term}

/-! ## Symbols -/

/-- The variable symbol that a leaf is. -/
def Leaf.symbol? : Leaf → Option String
  | const _ => none
  | var x => some x

/-- The variable symbol that a node is. -/
def Node.symbol? {α : Type} (n : Node α) : Option String := n.leaf?.bind Leaf.symbol?

/-- The variable symbols of a term, in the order of its nodes. -/
def Term.symbols (t : Term) : List String := t.nodes.toList.filterMap Node.symbol?

/-- The variable symbols that a pattern names by leaves.  Its holes name none. -/
def Pattern.symbols : Pattern → List String
  | hole _ => []
  | leaf l => l.symbol?.toList
  | unary _ p => p.symbols
  | binary _ p q => p.symbols ++ q.symbols

theorem Node.symbol_eq_some {α : Type} {n : Node α} {x : String} :
    n.symbol? = some x ↔ n = .leaf (.var x) := by
  cases n with
  | leaf l => cases l <;> simp [symbol?, leaf?, Leaf.symbol?]
  | unary op a => simp [symbol?, leaf?]
  | binary op a b => simp [symbol?, leaf?]

theorem Term.mem_symbols {x : String} : x ∈ t.symbols ↔ .leaf (.var x) ∈ t.nodes.toList := by
  simp only [symbols, List.mem_filterMap, Node.symbol_eq_some, exists_eq_right]

theorem Pattern.mem_symbols {p : Pattern} {x : String} :
    x ∈ p.symbols ↔ .leaf (.var x) ∈ p.heads := by
  induction p with
  | hole y => simp [symbols, heads]
  | leaf l => cases l <;> simp [symbols, heads, Leaf.symbol?]
  | unary op p ih => simp [symbols, heads, ih]
  | binary op p q ihp ihq => simp [symbols, heads, ihp, ihq]

/-- The built-in rules name no symbols. -/
theorem symbols_default : ∀ r ∈ Rule.defaults, r.lhs.symbols = [] ∧ r.rhs.symbols = [] := by
  decide

/-! ## Heads of a graph -/

/-- The nodes entered are leaves of constants, or have heads of the kind. -/
def Drawn (H : Node Unit → Prop) (g : EGraph) (o : Origin Unit) : Prop :=
  ∀ i, i < g.size → IsConstant (o.node i) ∨ H (o.node i).outline

variable {H : Node Unit → Prop}

theorem Drawn.extends {new : ENode → Prop} (h : Drawn H g o) (hext : Extends new g o g' o')
    (hnew : ∀ n, new n → H n.outline) : Drawn H g' o' := by
  intro i hi
  by_cases hold : i < g.size
  · rw [hext.node i hold]
    exact h i hold
  · exact (hext.fresh i (Nat.le_of_not_lt hold) hi).imp_right (hnew _)

/-- Rules whose right sides have heads of the kind make no others. -/
theorem keeps_drawn (hrules : ∀ r ∈ rules, ∀ n ∈ r.rhs.heads, H n) :
    Keeps (anyMeaning .constantFolding) rules (Drawn H) where
  later := fun _ hd _ hext => hd.extends hext fun _ hf => hf.elim
  apply := fun {_ _ r _} hr h hd hm =>
    Ends.endsWith (Rule.applyMatch_spec h (r.holds_anyMeaning _) hm) fun _ _ _ hext =>
      hd.extends hext fun _ hb => hrules r hr _ hb

/-! ## Simplification -/

/-- What has been simplified has nodes. -/
theorem isEmpty_of_simplify (h : t.simplify rules limits = .ok best) : t.isEmpty = false := by
  cases ht : t.isEmpty with
  | false => rfl
  | true =>
    rw [simplify_of_saturate_error (Runner.saturate_of_isEmpty rules limits ht)] at h
    cases h

/-- A head of a node of the term, or one of a right side. -/
def Supplied (t : Term) (rules : List Rule) (n : Node Unit) : Prop :=
  (∃ m ∈ t.nodes.toList, n = m.outline) ∨ ∃ r ∈ rules, n ∈ r.rhs.heads

/-- **Every head of a result** is a constant, or a head of the term or of a right side. -/
theorem supplied_of_simplify (h : t.simplify rules limits = .ok best) {n : Node Nat}
    (hn : n ∈ best.nodes.toList) : (∃ k, n = .leaf (.const k)) ∨ Supplied t rules n.outline := by
  have hvalued : t.Valued (anyMeaning .constantFolding) fun _ => () := fun _ _ _ => trivial
  obtain ⟨id, start, o₀, hadd, hseed⟩ := addTerm_spec hvalued (isEmpty_of_simplify h)
    ⟨fun _ => .leaf (.const .zero), fun _ => ()⟩
  have hdrawn : Drawn (Supplied t rules) start o₀ := fun i hi => (hseed.origin i hi).imp_right
    fun ⟨k, m, hm, houtline, _⟩ => .inl ⟨m, List.mem_of_getElem? (by
      rw [Array.getElem?_toList]
      exact hm), houtline⟩
  have hsets : Sets (anyMeaning .constantFolding) rules (Drawn (Supplied t rules)) start o₀ :=
    ⟨keeps_drawn fun r hr n hn => .inr ⟨r, hr, hn⟩, hseed.valid, hdrawn⟩
  rcases simplify_spec hsets hadd hseed.lt limits with ⟨e, he, -⟩ | ⟨_, g, o, cls, hok, hbest⟩
  · rw [he] at h
    cases h
  · rw [hok] at h
    cases h
    obtain ⟨i, hi⟩ := List.mem_iff_getElem?.1 hn
    rw [Array.getElem?_toList] at hi
    -- the node stands for one that was entered, over other names of the same classes
    obtain ⟨j, hj, hsame, -⟩ := hbest.spells.stands hbest.valid hi
    have houtline : n.outline = (o.node j).outline := by
      have := congrArg Node.outline hsame
      rwa [canonicalize, canonicalize, Node.outline_map, Node.outline_map, Node.outline_map] at this
    rcases hbest.holds j hj with ⟨k, hk⟩ | hH
    · rw [hk] at houtline
      cases n with
      | leaf l =>
        cases houtline
        exact .inl ⟨k, rfl⟩
      | unary op a => cases houtline
      | binary op a b => cases houtline
    · rw [houtline]
      exact .inr hH

/-- Symbols are heads. -/
theorem mem_symbols_of_simplify (h : t.simplify rules limits = .ok best) {x : String}
    (hx : x ∈ best.symbols) : x ∈ t.symbols ∨ ∃ r ∈ rules, x ∈ r.rhs.symbols := by
  rcases supplied_of_simplify h (Term.mem_symbols.1 hx) with
    ⟨k, hk⟩ | ⟨m, hm, houtline⟩ | ⟨r, hr, hhead⟩
  · cases hk
  · refine .inl (Term.mem_symbols.2 ?_)
    cases m with
    | leaf l =>
      cases houtline
      exact hm
    | unary op a => cases houtline
    | binary op a b => cases houtline
  · exact .inr ⟨r, hr, Pattern.mem_symbols.2 hhead⟩

/-- **No symbols are made up.**  Every variable symbol of what a simplification finds is one of the
term, or a leaf of a rule's right side.  By built-in rules, all of them or some, the symbols found
are among those of the term. -/
theorem simplify_symbols (h : t.simplify rules limits = .ok best) :
    (∀ x ∈ best.symbols, x ∈ t.symbols ∨ ∃ r ∈ rules, x ∈ r.rhs.symbols) ∧
      ((∀ r ∈ rules, r ∈ Rule.defaults) → best.symbols ⊆ t.symbols) := by
  refine ⟨fun x hx => mem_symbols_of_simplify h hx, fun hsub x hx => ?_⟩
  refine (mem_symbols_of_simplify h hx).resolve_right ?_
  rintro ⟨r, hr, hmem⟩
  rw [(symbols_default r (hsub r hr)).2] at hmem
  cases hmem

/-- A rule that names a symbol puts it into the result. -/
theorem simplify_symbols_named :
    let t := Term.ofTree (.binary .and (.leaf (.var "p")) (.leaf (.var "q")))
    let r : Rule := ⟨"named", .binary .and (.hole "a") (.hole "b"), .leaf (.var "z"), none, none,
      [], by decide, by decide⟩
    ∃ best, t.simplify [r] .default = .ok best ∧ best.symbols = ["z"] ∧
      (∀ x ∈ best.symbols, x ∈ t.symbols ∨ ∃ r' ∈ [r], x ∈ r'.rhs.symbols) ∧
      ((∀ r' ∈ [r], r' ∈ Rule.defaults) → best.symbols ⊆ t.symbols) := by
  intro t r
  have hrun : (t.simplify [r] .default).toOption.map Term.symbols = some ["z"] := by
    decide +kernel
  cases hok : t.simplify [r] .default with
  | error e =>
    rw [hok] at hrun
    cases hrun
  | ok best =>
    rw [hok] at hrun
    exact ⟨best, rfl, Option.some.inj hrun, simplify_symbols hok⟩

end EqSat
