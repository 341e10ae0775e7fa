import EqSat.Folding
import EqSat.Term
import EqSat.UnionFind

/-!
# E-graphs

An e-graph holds classes of nodes whose children are classes.  Two nodes of one class are
equal, and two nodes with equal heads and equal children belong to one class; the latter
is restored by a rebuild after classes have been joined.

With constant folding every class carries the constant that all of its nodes evaluate to,
when that is known.  A class of known value keeps its leaves only, the constant among them.
-/

namespace EqSat

/-- Classes are named by the ids of the union-find. -/
abbrev ClassId := Nat

/-- A node of an e-graph. -/
abbrev ENode := Node ClassId

/-- A node that uses a class, and the class that holds the node. -/
abbrev Usage := ENode × ClassId

/-- A class: its nodes, the nodes that use it, and the constant it is known to equal. -/
structure EClass where
  id : ClassId
  nodes : Array ENode
  parents : Array Usage
  data : Option Constant
deriving Repr

/-- What the classes carry: nothing, or the constant they fold to. -/
inductive Analysis where
  | empty
  | constantFolding
deriving DecidableEq, Repr

/-- Two different constants meet in one class. -/
structure Conflict where
  left : Constant
  right : Constant
  leftClass : ClassId
  rightClass : ClassId
deriving DecidableEq, Repr

def Conflict.message (e : Conflict) : String :=
  "merged non-equal constants " ++ e.left.text ++ " and " ++ e.right.text ++ " (e-classes " ++
    toString e.leftClass ++ " and " ++ toString e.rightClass ++ ")"

/-- A hash-consed e-graph whose congruence is restored on demand.

`classes` holds the class of every root of `links` at the root's id, and nothing at the ids
that lost their class to another.  `memo` maps the nodes entered so far to their class.
`pending` and `foldPending` are stacks of usages that the next rebuild looks at again: for
congruence, and for the constant of the class. -/
structure EGraph where
  analysis : Analysis
  links : UnionFind
  classes : Array (Option EClass)
  memo : Std.TreeMap ENode ClassId
  pending : List Usage
  foldPending : List Usage
  unionCount : Nat
  clean : Bool

namespace EClass

/-- Only the leaves are kept. -/
def prune (c : EClass) : EClass := { c with nodes := c.nodes.filter Node.isLeaf }

def addParent (c : EClass) (u : Usage) : EClass := { c with parents := c.parents.push u }

end EClass

namespace EGraph

/-- The e-graph without nodes. -/
def empty (analysis : Analysis) : EGraph where
  analysis := analysis
  links := .empty
  classes := #[]
  memo := ∅
  pending := []
  foldPending := []
  unionCount := 0
  clean := true

/-! ## Queries -/

/-- The class an id belongs to. -/
def find (g : EGraph) (id : ClassId) : ClassId := g.links.root id

def equivalent (g : EGraph) (a b : ClassId) : Bool := g.find a == g.find b

/-- The class stored under an id that is a root. -/
def stored? (g : EGraph) (id : ClassId) : Option EClass := g.classes[id]?.join

/-- The class of an id. -/
def classAt? (g : EGraph) (id : ClassId) : Option EClass := g.stored? (g.find id)

/-- The constant a class is known to equal. -/
def constantAt? (g : EGraph) (id : ClassId) : Option Constant := (g.classAt? id).bind (·.data)

/-- The nodes of the class of an id. -/
def nodesAt (g : EGraph) (id : ClassId) : List ENode :=
  match g.classAt? id with
  | some c => c.nodes.toList
  | none => []

/-- The classes in the order of their ids. -/
def classList (g : EGraph) : List EClass := g.classes.toList.filterMap id

def numClasses (g : EGraph) : Nat :=
  g.classes.foldl (fun n c => if c.isSome then n + 1 else n) 0

/-- The number of nodes in all classes. -/
def numNodes (g : EGraph) : Nat :=
  g.classes.foldl (fun n c => match c with
    | some c => n + c.nodes.size
    | none => n) 0

/-- The node over the classes that its children belong to now. -/
def canonicalize (g : EGraph) (n : ENode) : ENode := n.map g.find

/-- The class that holds a node. -/
def lookup (g : EGraph) (n : ENode) : Option ClassId := (g.memo[g.canonicalize n]?).map g.find

/-- The classes of a term's nodes from the first to the last, if all of them are known. -/
def lookupNodes (g : EGraph) : List (Node Nat) → Array ClassId → Option (Array ClassId)
  | [], ids => some ids
  | n :: ns, ids => do
    let id ← g.lookup (← n.mapM (ids[·]?))
    g.lookupNodes ns (ids.push id)

/-- The class that holds a whole term. -/
def lookupTerm (g : EGraph) (t : Term) : Option ClassId := do
  (← g.lookupNodes t.nodes.toList #[]).back?

/-- The constant that a node evaluates to, by what is known of its children. -/
def foldNode (g : EGraph) (n : ENode) : Option Constant :=
  match g.analysis with
  | .empty => none
  | .constantFolding => (n.map g.constantAt?).fold?

end EGraph

end EqSat
