import EqSat.Proofs.Printing.Term
import EqSat.Proofs.Printing.Tokens
import EqSat.Proofs.Walk

/-!
# Texts of ground terms

A text stands for a ground term if it is an s-expression in which every list is headed by an
operator on as many operands as follow, and every other word is a leaf.  Whatever else it is, it
has a first fault, in the order in which the lists are looked at, and that is the error.

The term is the tree laid out in post-order.  Laying out with a stack, one list at a time, builds
the same term and fails with the same error.

    Sexpr.ofSexpr_eq_ok_iff       reading succeeds on what is well-formed
    Sexpr.ofSexpr_eq_error_iff    and tells the first fault of anything else
    Term.readInLoop_eq            reading in a loop
    Term.reads_wellFormed         all of it for a text
-/

namespace EqSat

theorem Operator.lookup?_one {w : String} {op : UnaryOp} :
    lookup? w 1 = some (.unary op) ↔ UnaryOp.ofSymbol? w = some op := by simp [lookup?]

theorem Operator.lookup?_two {w : String} {op : BinaryOp} :
    lookup? w 2 = some (.binary op) ↔ BinaryOp.ofSymbol? w = some op := by simp [lookup?]

theorem Operator.arity_of_lookup? {w : String} {k : Nat} {op : Operator}
    (h : lookup? w k = some op) : k = op.arity := by
  unfold lookup? at h
  split at h
  · obtain ⟨op', -, rfl⟩ := Option.map_eq_some_iff.1 h
    rfl
  · obtain ⟨op', -, rfl⟩ := Option.map_eq_some_iff.1 h
    rfl
  · cases h

namespace Sexpr

variable {s x y : Sexpr} {xs : List Sexpr} {w source : String} {u v : Tree} {e : TermError}
  {l : Leaf}

/-- Every list starts with the symbol of an operator on as many operands as follow it, and every
word that is an operand, or alone, is a leaf. -/
inductive WellFormed : Sexpr → Prop
  | word {w : String} {l : Leaf} : Leaf.ofWord? w = some l → WellFormed (atom w)
  | list {w : String} {xs : List Sexpr} {op : Operator} :
      Operator.lookup? w xs.length = some op → (∀ x ∈ xs, WellFormed x) →
      WellFormed (list (atom w :: xs))

/-- The tree that is written. -/
inductive Spells : Sexpr → Tree → Prop
  | leaf {w : String} {l : Leaf} : Leaf.ofWord? w = some l → Spells (atom w) (.leaf l)
  | unary {w : String} {x : Sexpr} {op : UnaryOp} {u : Tree} :
      Operator.lookup? w 1 = some (.unary op) → Spells x u →
      Spells (list [atom w, x]) (.unary op u)
  | binary {w : String} {x y : Sexpr} {op : BinaryOp} {u v : Tree} :
      Operator.lookup? w 2 = some (.binary op) → Spells x u → Spells y v →
      Spells (list [atom w, x, y]) (.binary op u v)

/-- The first fault, and what is said of it: a list is looked at before its operands, and these from
left to right. -/
inductive Fault (source : String) : Sexpr → TermError → Prop
  | word {w : String} : Leaf.ofWord? w = none → Fault source (atom w) (.reservedName w)
  | empty : Fault source (list []) (.expectedOperator source)
  | headless {xs ys : List Sexpr} : Fault source (list (list ys :: xs)) (.expectedOperator source)
  | unknown {w : String} {xs : List Sexpr} : Operator.lookup? w xs.length = none →
      Fault source (list (atom w :: xs)) (.unknownOperator w xs.length source)
  | operand {w : String} {xs ys : List Sexpr} {x : Sexpr} {op : Operator} {e : TermError} :
      Operator.lookup? w (xs ++ x :: ys).length = some op → (∀ y ∈ xs, WellFormed y) →
      Fault source x e → Fault source (list (atom w :: (xs ++ x :: ys))) e

/-! ## One list at a time -/

theorem ofSexpr_word (h : Leaf.ofWord? w = some l) :
    Tree.ofSexpr source (atom w) = .ok (.leaf l) := by
  rw [Tree.ofSexpr, Leaf.read, h]
  rfl

theorem ofSexpr_reserved (h : Leaf.ofWord? w = none) :
    Tree.ofSexpr source (atom w) = .error (.reservedName w) := by
  rw [Tree.ofSexpr, Leaf.read, h]
  rfl

theorem ofSexpr_unary {op : UnaryOp} (h : Operator.lookup? w 1 = some (.unary op)) :
    Tree.ofSexpr source (list [atom w, x]) = (Tree.ofSexpr source x).map (.unary op) := by
  rw [Tree.ofSexpr, Operator.lookup?_one.1 h]
  cases Tree.ofSexpr source x <;> rfl

theorem ofSexpr_binary {op : BinaryOp} (h : Operator.lookup? w 2 = some (.binary op)) :
    Tree.ofSexpr source (list [atom w, x, y]) = (Tree.ofSexpr source x).bind fun u =>
      (Tree.ofSexpr source y).map (.binary op u) := by
  rw [Tree.ofSexpr, Operator.lookup?_two.1 h]
  cases Tree.ofSexpr source x <;> cases Tree.ofSexpr source y <;> rfl

theorem ofSexpr_unknown (h : Operator.lookup? w xs.length = none) :
    Tree.ofSexpr source (list (atom w :: xs)) = .error (.unknownOperator w xs.length source) := by
  match xs with
  | [] => rfl
  | [x] =>
    have hop : UnaryOp.ofSymbol? w = none := by simpa [Operator.lookup?] using h
    rw [Tree.ofSexpr, hop]
    rfl
  | [x, y] =>
    have hop : BinaryOp.ofSymbol? w = none := by simpa [Operator.lookup?] using h
    rw [Tree.ofSexpr, hop]
    rfl
  | x :: y :: z :: zs => rfl

/-- The node at the head, over the operands as they are written. -/
def view (source : String) : Sexpr → Except TermError (Node Sexpr)
  | atom w => match Leaf.ofWord? w with
    | some l => .ok (.leaf l)
    | none => .error (.reservedName w)
  | list (atom w :: xs) => match Operator.lookup? w xs.length, xs with
    | some (.unary op), [x] => .ok (.unary op x)
    | some (.binary op), [x, y] => .ok (.binary op x y)
    | _, _ => .error (.unknownOperator w xs.length source)
  | list _ => .error (.expectedOperator source)

/-- An s-expression is a leaf, an operator over its operands, or at fault at its head; and so are
the operands. -/
inductive Headed (source : String) : Sexpr → Prop
  | leaf {w : String} {l : Leaf} : Leaf.ofWord? w = some l → Headed source (atom w)
  | unary {w : String} {x : Sexpr} {op : UnaryOp} : Operator.lookup? w 1 = some (.unary op) →
      Headed source x → Headed source (list [atom w, x])
  | binary {w : String} {x y : Sexpr} {op : BinaryOp} :
      Operator.lookup? w 2 = some (.binary op) → Headed source x → Headed source y →
      Headed source (list [atom w, x, y])
  | fault {s : Sexpr} {e : TermError} : view source s = .error e →
      Tree.ofSexpr source s = .error e → Fault source s e → Headed source s

theorem headed (source : String) (s : Sexpr) : Headed source s := by
  match s with
  | atom w =>
    cases hw : Leaf.ofWord? w with
    | some l => exact .leaf hw
    | none => exact .fault (by rw [view, hw]) (ofSexpr_reserved hw) (.word hw)
  | list [] => exact .fault rfl rfl .empty
  | list (list ys :: xs) => exact .fault rfl rfl .headless
  | list (atom w :: xs) =>
    cases hop : Operator.lookup? w xs.length with
    | none => exact .fault (by simp [view, hop]) (ofSexpr_unknown hop) (.unknown hop)
    | some op =>
      have hlen := Operator.arity_of_lookup? hop
      rw [hlen] at hop
      cases op with
      | unary op =>
        obtain ⟨x, rfl⟩ := List.length_eq_one_iff.1 hlen
        exact .unary hop (headed source x)
      | binary op =>
        obtain ⟨x, y, rfl⟩ := List.length_eq_two.1 hlen
        exact .binary hop (headed source x) (headed source y)

theorem view_word (source : String) (h : Leaf.ofWord? w = some l) :
    view source (atom w) = .ok (.leaf l) := by
  rw [view, h]

theorem view_unary (source : String) {op : UnaryOp}
    (h : Operator.lookup? w 1 = some (.unary op)) :
    view source (list [atom w, x]) = .ok (.unary op x) := by
  simp [view, h]

theorem view_binary (source : String) {op : BinaryOp}
    (h : Operator.lookup? w 2 = some (.binary op)) :
    view source (list [atom w, x, y]) = .ok (.binary op x y) := by
  simp [view, h]

/-- A list is longer than its operands. -/
theorem length_tokens_list (w : String) (xs : List Sexpr) :
    (list (atom w :: xs)).tokens.length = 3 + (xs.map fun x => x.tokens.length).sum := by
  have hitems : (itemTokensOnto xs []).length = (xs.map fun x => x.tokens.length).sum := by
    induction xs with
    | nil => rfl
    | cons x xs ih =>
      rw [itemTokensOnto, tokensOnto_eq, List.length_append, ih]
      rfl
  rw [tokens_list, itemTokensOnto, tokensOnto]
  simp only [List.length_cons, List.length_append, List.length_nil, hitems]
  omega

/-- S-expressions as items that show their heads. -/
def layered (source : String) : Layered Sexpr TermError where
  view := view source
  size := fun s => s.tokens.length
  total_lt := by
    intro s n h
    cases headed source s with
    | leaf hw =>
      rw [view_word source hw] at h
      cases h
      exact Nat.zero_lt_one
    | unary hop =>
      rw [view_unary source hop] at h
      cases h
      simp [length_tokens_list, Node.map, Node.total]
    | binary hop =>
      rw [view_binary source hop] at h
      cases h
      simp [length_tokens_list, Node.map, Node.total]
    | fault hview =>
      rw [hview] at h
      cases h

/-! ## Reading by recursion -/

theorem Spells.wellFormed (h : s.Spells u) : s.WellFormed := by
  induction h with
  | leaf hw => exact .word hw
  | @unary w x op u hop _ ih =>
    have hlen : Operator.lookup? w [x].length = some (.unary op) := hop
    exact .list hlen (by simpa using ih)
  | @binary w x y op u v hop _ _ ihx ihy =>
    have hlen : Operator.lookup? w [x, y].length = some (.binary op) := hop
    exact .list hlen (by simpa using ⟨ihx, ihy⟩)

/-- An s-expression stands for a tree, or there is a first fault in it. -/
def Outcome (source : String) (s : Sexpr) : Except TermError Tree → Prop
  | .ok u => s.Spells u
  | .error e => Fault source s e

/-- The recursion finds the tree or the first fault. -/
theorem outcome_ofSexpr (source : String) (s : Sexpr) :
    s.Outcome source (Tree.ofSexpr source s) := by
  induction headed source s with
  | leaf hw =>
    rw [ofSexpr_word hw]
    exact .leaf hw
  | @unary w x op hop _ ih =>
    rw [ofSexpr_unary hop]
    have hlen : Operator.lookup? w ([] ++ [x]).length = some (.unary op) := hop
    cases hx : Tree.ofSexpr source x with
    | ok u =>
      rw [hx] at ih
      exact .unary hop ih
    | error e =>
      rw [hx] at ih
      exact .operand hlen (List.forall_mem_nil _) ih
  | @binary w x y op hop _ _ ihx ihy =>
    rw [ofSexpr_binary hop]
    cases hx : Tree.ofSexpr source x with
    | error e =>
      rw [hx] at ihx
      have hlen : Operator.lookup? w ([] ++ x :: [y]).length = some (.binary op) := hop
      exact .operand hlen (List.forall_mem_nil _) ihx
    | ok u =>
      rw [hx] at ihx
      have hlen : Operator.lookup? w ([x] ++ y :: []).length = some (.binary op) := hop
      cases hy : Tree.ofSexpr source y with
      | ok v =>
        rw [hy] at ihy
        exact .binary hop ihx ihy
      | error e =>
        rw [hy] at ihy
        exact .operand hlen (by simpa using Spells.wellFormed ihx) ihy
  | fault _ hof hfault =>
    rw [hof]
    exact hfault

/-- The recursion reads what the heads show. -/
theorem reads_ofSexpr (source : String) (s : Sexpr) :
    (layered source).Reads s (Tree.ofSexpr source s) := by
  induction headed source s with
  | leaf hw =>
    rw [ofSexpr_word hw]
    exact .leaf (view_word source hw)
  | unary hop _ ih =>
    rw [ofSexpr_unary hop]
    exact .unary (view_unary source hop) ih
  | @binary w x y op hop _ _ ihx ihy =>
    rw [ofSexpr_binary hop]
    cases hx : Tree.ofSexpr source x with
    | error e =>
      rw [hx] at ihx
      exact .left (view_binary source hop) ihx
    | ok u =>
      rw [hx] at ihx
      exact .binary (view_binary source hop) ihx ihy
  | fault hview hof =>
    rw [hof]
    exact .refused hview

theorem ofSexpr_of_spells (h : s.Spells u) : Tree.ofSexpr source s = .ok u := by
  induction h with
  | leaf hw => exact ofSexpr_word hw
  | unary hop _ ih =>
    rw [ofSexpr_unary hop, ih]
    rfl
  | binary hop _ _ ihx ihy =>
    rw [ofSexpr_binary hop, ihx, ihy]
    rfl

/-- What is well-formed stands for a tree. -/
theorem wellFormed_iff : s.WellFormed ↔ ∃ u, s.Spells u := by
  refine ⟨fun h => ?_, fun ⟨u, hu⟩ => hu.wellFormed⟩
  induction h with
  | word hw => exact ⟨_, .leaf hw⟩
  | @list w xs op hop _ ih =>
    have hlen := Operator.arity_of_lookup? hop
    rw [hlen] at hop
    cases op with
    | unary op =>
      obtain ⟨x, rfl⟩ := List.length_eq_one_iff.1 hlen
      obtain ⟨u, hu⟩ := ih x (by simp)
      exact ⟨_, .unary hop hu⟩
    | binary op =>
      obtain ⟨x, y, rfl⟩ := List.length_eq_two.1 hlen
      obtain ⟨u, hu⟩ := ih x (by simp)
      obtain ⟨v, hv⟩ := ih y (by simp)
      exact ⟨_, .binary hop hu hv⟩

theorem ofSexpr_of_fault (h : Fault source s e) : Tree.ofSexpr source s = .error e := by
  induction h with
  | word hw => exact ofSexpr_reserved hw
  | empty => rfl
  | headless => rfl
  | unknown hop => exact ofSexpr_unknown hop
  | @operand w xs ys x op e hop hxs _ ih =>
    have hlen := Operator.arity_of_lookup? hop
    rw [hlen] at hop
    rw [List.length_append, List.length_cons] at hlen
    cases op with
    | unary op =>
      simp only [Operator.arity] at hlen
      have hxs : xs = [] := List.eq_nil_of_length_eq_zero (by omega)
      have hys : ys = [] := List.eq_nil_of_length_eq_zero (by omega)
      rw [hxs, hys]
      exact (ofSexpr_unary hop).trans (by rw [ih]; rfl)
    | binary op =>
      simp only [Operator.arity] at hlen
      cases xs with
      | nil =>
        rw [List.length_nil] at hlen
        obtain ⟨y, rfl⟩ := List.length_eq_one_iff.1 (by omega : ys.length = 1)
        exact (ofSexpr_binary hop).trans (by rw [ih]; rfl)
      | cons y xs =>
        rw [List.length_cons] at hlen
        obtain rfl : xs = [] := List.eq_nil_of_length_eq_zero (by omega)
        obtain rfl : ys = [] := List.eq_nil_of_length_eq_zero (by omega)
        obtain ⟨u, hu⟩ := wellFormed_iff.1 (hxs y (by simp))
        exact (ofSexpr_binary hop).trans (by rw [ofSexpr_of_spells hu, ih]; rfl)

/-- What is read is what is written. -/
theorem ofSexpr_eq_ok_iff : Tree.ofSexpr source s = .ok u ↔ s.Spells u := by
  refine ⟨fun h => ?_, ofSexpr_of_spells⟩
  have hout := outcome_ofSexpr source s
  rwa [h] at hout

/-- The error tells the first fault. -/
theorem ofSexpr_eq_error_iff : Tree.ofSexpr source s = .error e ↔ Fault source s e := by
  refine ⟨fun h => ?_, ofSexpr_of_fault⟩
  have hout := outcome_ofSexpr source s
  rwa [h] at hout

end Sexpr

namespace Tree

theorem read_eq_ok_iff {source : String} {u : Tree} :
    read source = .ok u ↔ ∃ s, Sexpr.read source = .ok s ∧ s.Spells u := by
  unfold read
  cases Sexpr.read source with
  | error cause => simp
  | ok s => simp [Sexpr.ofSexpr_eq_ok_iff]

theorem read_eq_error_iff {source : String} {e : TermError} : read source = .error e ↔
    (∃ cause, Sexpr.read source = .error cause ∧ e = .sexpr cause source) ∨
      ∃ s, Sexpr.read source = .ok s ∧ s.Fault source e := by
  unfold read
  cases Sexpr.read source with
  | error cause => simp [eq_comm]
  | ok s => simp [Sexpr.ofSexpr_eq_error_iff]

end Tree

namespace Term

/-- The term that a text stands for, laid out in a loop. -/
def readInLoop (source : String) : Except (WalkError TermError) Term :=
  match Sexpr.read source with
  | .error cause => .error (.refused (.sexpr cause source))
  | .ok s => ((Sexpr.layered source).layOut empty s).map Prod.fst

theorem readInLoop_eq (source : String) :
    readInLoop source = (read source).mapError .refused := by
  rw [readInLoop, read, Tree.read]
  cases Sexpr.read source with
  | error cause => rfl
  | ok s =>
    dsimp only
    rw [Layered.layOut_eq (Sexpr.reads_ofSexpr source s)]
    cases Tree.ofSexpr source s <;> rfl

theorem read_eq_ok_iff {source : String} {t : Term} :
    read source = .ok t ↔ ∃ u, Tree.read source = .ok u ∧ ofTree u = t := by
  unfold read
  cases Tree.read source with
  | error e => simp [Except.map]
  | ok u => simp [Except.map]

theorem read_eq_error_iff {source : String} {e : TermError} :
    read source = .error e ↔ Tree.read source = .error e := by
  unfold read
  cases Tree.read source <;> simp [Except.map]

/-- **A text stands for a term exactly if it is well-formed.**  The term is the tree that is
written, in post-order: its nodes are as many as its cost, and each but the last is an operand once.
Of any other text the first fault is told, and the loop finds the same. -/
theorem reads_wellFormed (source : String) :
    ((∃ t, read source = .ok t) ↔ ∃ s, Sexpr.read source = .ok s ∧ s.WellFormed) ∧
    (∀ t, read source = .ok t ↔
      ∃ s u, Sexpr.read source = .ok s ∧ s.Spells u ∧ t.nodes.toList = u.postOrder 0) ∧
    (∀ t, read source = .ok t → t.cost? = some t.size ∧
      (t.nodes.toList.flatMap Node.children).Perm (List.range (t.size - 1))) ∧
    (∀ e, read source = .error e ↔
      (∃ cause, Sexpr.read source = .error cause ∧ e = .sexpr cause source) ∨
        ∃ s, Sexpr.read source = .ok s ∧ s.Fault source e) ∧
    readInLoop source = (read source).mapError .refused := by
  have hok : ∀ t, read source = .ok t ↔
      ∃ s u, Sexpr.read source = .ok s ∧ s.Spells u ∧ t.nodes.toList = u.postOrder 0 := by
    intro t
    rw [read_eq_ok_iff]
    simp only [Tree.read_eq_ok_iff, ofTree_eq_iff]
    constructor
    · rintro ⟨u, ⟨s, hs, hu⟩, ht⟩
      exact ⟨s, u, hs, hu, ht⟩
    · rintro ⟨s, u, hs, hu, ht⟩
      exact ⟨u, ⟨s, hs, hu⟩, ht⟩
  refine ⟨?_, hok, ?_, ?_, readInLoop_eq source⟩
  · constructor
    · rintro ⟨t, ht⟩
      obtain ⟨s, u, hs, hu, -⟩ := (hok t).1 ht
      exact ⟨s, hs, hu.wellFormed⟩
    · rintro ⟨s, hs, hwell⟩
      obtain ⟨u, hu⟩ := Sexpr.wellFormed_iff.1 hwell
      exact ⟨ofTree u, (hok _).2 ⟨s, u, hs, hu, nodes_ofTree u⟩⟩
  · intro t ht
    obtain ⟨u, -, rfl⟩ := read_eq_ok_iff.1 ht
    refine ⟨cost?_ofTree u, ?_⟩
    rw [nodes_ofTree, size_ofTree, List.range_eq_range']
    exact u.perm_children_postOrder 0
  · intro e
    rw [read_eq_error_iff, Tree.read_eq_error_iff]

/-- A subterm that is written twice stands twice in the list.  Of several faults the first is
told. -/
theorem reads_wellFormed_repeated :
    (∃ t, read "(+ (- x) (- x))" = .ok t ∧ t.size = 5 ∧ t.cost? = some 5 ∧
      (t.nodes.toList.flatMap Node.children).Perm [0, 1, 2, 3]) ∧
    read "(+ (foo x) ())" = .error (.unknownOperator "foo" 1 "(+ (foo x) ())") := by
  constructor
  · have hread : (read "(+ (- x) (- x))").toOption.map size = some 5 := by decide +kernel
    obtain ⟨t, ht, hsize⟩ := Option.map_eq_some_iff.1 hread
    have hread := eq_ok_of_toOption ht
    obtain ⟨hcost, hperm⟩ := (reads_wellFormed "(+ (- x) (- x))").2.2.1 t hread
    rw [hsize] at hcost hperm
    exact ⟨t, hread, hsize, hcost, hperm⟩
  · have hs : Sexpr.read "(+ (foo x) ())" =
        .ok (.list [.atom "+", .list [.atom "foo", .atom "x"], .list []]) := by rfl
    refine ((reads_wellFormed "(+ (foo x) ())").2.2.2.1 _).2 (.inr ⟨_, hs, ?_⟩)
    have hplus : Operator.lookup? "+" ([] ++ Sexpr.list [.atom "foo", .atom "x"] ::
        [.list []]).length = some (.binary .add) := by decide
    exact .operand hplus (List.forall_mem_nil _) (.unknown (by decide))

end Term
end EqSat
