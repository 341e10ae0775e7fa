import EqSat.Leaf

/-!
# Nodes

A node is a leaf, or an operator over references to its operands.  What a reference is
depends on where the node lives: a position in a term, or a class of an e-graph.  The
number of references is the operator's arity by construction.

    n.map f = n                 if f fixes the children of n        (map_eq_self)
    compare m n = .eq ↔ m = n                                       (compare_eq_iff)
-/

namespace EqSat

/-- A leaf, or an operator over references of type `α`. -/
inductive Node (α : Type) where
  | leaf (l : Leaf)
  | unary (op : UnaryOp) (a : α)
  | binary (op : BinaryOp) (a b : α)
deriving DecidableEq, Repr

namespace Node

variable {α β : Type}

def children : Node α → List α
  | leaf _ => []
  | unary _ a => [a]
  | binary _ a b => [a, b]

def isLeaf : Node α → Bool
  | leaf _ => true
  | _ => false

/-- How the head of the node prints. -/
def label : Node α → String
  | leaf l => l.label
  | unary op _ => op.symbol
  | binary op _ _ => op.symbol

/-- The same head over other references. -/
def map (f : α → β) : Node α → Node β
  | leaf l => leaf l
  | unary op a => unary op (f a)
  | binary op a b => binary op (f a) (f b)

/-- `map` for a function that may fail, on the left operand first. -/
def mapM {m : Type → Type} [Monad m] (f : α → m β) : Node α → m (Node β)
  | leaf l => pure (leaf l)
  | unary op a => do return unary op (← f a)
  | binary op a b => do
    let x ← f a
    let y ← f b
    return binary op x y

/-- The sum over the children. -/
def total [Add α] [OfNat α 0] : Node α → α
  | leaf _ => 0
  | unary _ a => a
  | binary _ a b => a + b

/-! ## Order -/

/-- The place of the head's kind and operator among all heads. -/
def rank : Node α → Nat
  | leaf _ => 0
  | unary op _ => 1 + op.ctorIdx
  | binary op _ _ => 1 + UnaryOp.all.length + op.ctorIdx

def leaf? : Node α → Option Leaf
  | leaf l => some l
  | _ => none

def first? : Node α → Option α
  | leaf _ => none
  | unary _ a => some a
  | binary _ a _ => some a

def second? : Node α → Option α
  | binary _ _ b => some b
  | _ => none

/-- Nodes are ordered by head, then by children from the left. -/
instance [Ord α] : Ord (Node α) where
  compare := compareLex (compareOn rank) (compareLex (compareOn leaf?)
    (compareLex (compareOn first?) (compareOn second?)))

/-! ## Lemmas -/

theorem map_id (n : Node α) : n.map id = n := by cases n <;> rfl

theorem map_map {γ : Type} (g : β → γ) (f : α → β) (n : Node α) :
    (n.map f).map g = n.map (g ∘ f) := by cases n <;> rfl

theorem children_map (f : α → β) (n : Node α) : (n.map f).children = n.children.map f := by
  cases n <;> rfl

theorem mem_children_map (f : α → β) {n : Node α} {a : α} (ha : a ∈ n.children) :
    f a ∈ (n.map f).children := by
  rw [children_map]
  exact List.mem_map_of_mem ha

theorem forall_mem_children_map {f : α → β} {n : Node α} {P : β → Prop} :
    (∀ b ∈ (n.map f).children, P b) ↔ ∀ a ∈ n.children, P (f a) := by
  simp [children_map]

theorem map_congr {f g : α → β} {n : Node α} (h : ∀ c ∈ n.children, f c = g c) :
    n.map f = n.map g := by
  cases n <;> simp_all [map, children]

theorem map_eq_self {f : α → α} {n : Node α} (h : ∀ c ∈ n.children, f c = c) : n.map f = n := by
  exact (map_congr (show ∀ c ∈ n.children, f c = id c by simpa using h)).trans (map_id n)

instance [Ord α] [Std.TransOrd α] : Std.TransOrd (Node α) :=
  inferInstanceAs (Std.TransCmp (compareLex (compareOn (rank (α := α)))
    (compareLex (compareOn (leaf? (α := α)))
      (compareLex (compareOn (first? (α := α))) (compareOn (second? (α := α)))))))

theorem ext_of_parts {m n : Node α} (hr : m.rank = n.rank) (hl : m.leaf? = n.leaf?)
    (h1 : m.first? = n.first?) (h2 : m.second? = n.second?) : m = n := by
  cases m <;> cases n
  case leaf.leaf => simpa [leaf?] using hl
  case unary.unary o a p b =>
    cases o <;> cases p <;> simp_all [rank, first?, UnaryOp.ctorIdx]
  case binary.binary o a b p c d =>
    cases o <;> cases p <;> simp_all [rank, first?, second?, BinaryOp.ctorIdx]
  case unary.binary o a p b c => simp [second?] at h2
  case binary.unary o a b p c => simp [second?] at h2
  all_goals simp [leaf?] at hl h1

instance [Ord α] [Std.LawfulEqOrd α] : Std.LawfulEqOrd (Node α) where
  eq_of_compare {m n} h := by
    have h' : (compare m.rank n.rank).then ((compare m.leaf? n.leaf?).then
        ((compare m.first? n.first?).then (compare m.second? n.second?))) = .eq := h
    simp only [Ordering.then_eq_eq, Std.compare_eq_iff_eq] at h'
    exact ext_of_parts h'.1 h'.2.1 h'.2.2.1 h'.2.2.2
  compare_self {n} := by
    have : compare n n = (compare n.rank n.rank).then ((compare n.leaf? n.leaf?).then
        ((compare n.first? n.first?).then (compare n.second? n.second?))) := rfl
    rw [this]
    simp

end Node

/-! ## Heads -/

/-- What a node applies: one of the two leaf kinds, or an operator. -/
inductive Head where
  | const
  | var
  | operator (op : Operator)
deriving DecidableEq, Repr

namespace Head

def arity : Head → Nat
  | const => 0
  | var => 0
  | operator op => op.arity

/-- The name of the head in messages. -/
def name : Head → String
  | const => "CONSTANT"
  | var => "VAR"
  | operator (.unary op) => match op with
    | .minus => "MINUS"
    | .plus => "PLUS"
    | .deref => "DEREF"
    | .not => "NOT"
  | operator (.binary op) => match op with
    | .add => "ADD"
    | .sub => "SUB"
    | .mul => "MUL"
    | .div => "DIV"
    | .intDiv => "INT_DIV"
    | .mod => "MODULUS"
    | .and => "AND"
    | .or => "OR"
    | .implies => "IMPLIES"
    | .iff => "IFF"
    | .eq => "EQ"
    | .ne => "NOT_EQ"
    | .lt => "LESS"
    | .le => "LESS_EQ"
    | .gt => "GREATER"
    | .ge => "GREATER_EQ"

def all : List Head :=
  UnaryOp.all.map (fun op => operator (.unary op)) ++
    BinaryOp.all.map (fun op => operator (.binary op)) ++ [const, var]

def ofName? (s : String) : Option Head := all.find? (·.name == s)

end Head

/-- A head applied to a number of operands other than its arity. -/
structure ArityError where
  head : Head
  given : Nat
deriving DecidableEq, Repr

def ArityError.message (e : ArityError) : String :=
  e.head.name ++ " takes " ++ toString e.head.arity ++ " children, got " ++ toString e.given

/-- A head over as many references as it takes.  A leaf kind alone names no leaf yet. -/
inductive Application (α : Type) where
  | bareConst
  | bareVar
  | node (n : Node α)
deriving DecidableEq, Repr

namespace Application

variable {α β : Type}

/-- Apply a head to its operands. -/
def ofHead : Head → List α → Except ArityError (Application α)
  | .const, [] => .ok bareConst
  | .var, [] => .ok bareVar
  | .operator (.unary op), [a] => .ok (node (.unary op a))
  | .operator (.binary op), [a, b] => .ok (node (.binary op a b))
  | h, xs => .error ⟨h, xs.length⟩

def head : Application α → Head
  | bareConst => .const
  | bareVar => .var
  | node (.leaf (.const _)) => .const
  | node (.leaf (.var _)) => .var
  | node (.unary op _) => .operator (.unary op)
  | node (.binary op _ _) => .operator (.binary op)

def children : Application α → List α
  | node n => n.children
  | _ => []

def map (f : α → β) : Application α → Application β
  | bareConst => bareConst
  | bareVar => bareVar
  | node n => node (n.map f)

/-- How the head prints: a bare constant prints as `None`, and a bare variable has no name. -/
def label? : Application α → Option String
  | bareConst => some "None"
  | bareVar => none
  | node n => some n.label

end Application

end EqSat
