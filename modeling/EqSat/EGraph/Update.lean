import EqSat.EGraph.Basic

/-!
# Adding nodes and joining classes

Nodes are entered once: a node that is present already is found by its canonical form.
Joining two classes merges their constants first, and refuses, changing nothing, when both
are known and differ.  What a join leaves to be repaired goes on the two worklists.

A class whose value becomes known is joined with the constant's leaf and loses all nodes
that are not leaves (`settle`).

    mergeConstants a b = .error (l, r) ↔ a = some l ∧ b = some r ∧ l ≠ r
                                                              (mergeConstants_eq_error)
-/

namespace EqSat

/-- A change of an e-graph, which a conflict of constants may cut short. -/
abbrev Update := EStateM Conflict EGraph

/-- What is known when two classes are joined; two different constants conflict. -/
def mergeConstants : Option Constant → Option Constant →
    Except (Constant × Constant) (Option Constant)
  | none, right => .ok right
  | left, none => .ok left
  | some left, some right => if left = right then .ok (some left) else .error (left, right)

/-- The usages put on a stack one after the other. -/
def pushUsages (us : Array Usage) (stack : List Usage) : List Usage :=
  us.foldl (fun st u => u :: st) stack

namespace EGraph

def modifyClass (g : EGraph) (id : ClassId) (f : EClass → EClass) : EGraph :=
  { g with classes := g.classes.modify id (Option.map f) }

/-- Enter a canonical node that is not present, in a class of its own. -/
def enter (g : EGraph) (n : ENode) : EGraph :=
  let id := g.links.size
  let c : EClass := ⟨id, #[n], #[], g.foldNode n⟩
  { g with
    links := g.links.makeSet
    classes := n.children.foldl (fun cs child => cs.modify child (Option.map (·.addParent (n, id))))
      (g.classes.push (some c))
    memo := g.memo.insert n id
    clean := false }

/-- Give the nodes and usages of the class `other` to the class at `root`, whose constant
becomes `data`. -/
def absorb (g : EGraph) (root : ClassId) (other : EClass) (data : Option Constant) : EGraph :=
  let rootClass := g.stored? root
  let rootData := rootClass.bind (·.data)
  let rootParents := (rootClass.map (·.parents)).getD #[]
  let foldPending := if data ≠ rootData then pushUsages rootParents g.foldPending else g.foldPending
  let foldPending := if data ≠ other.data then pushUsages other.parents foldPending else foldPending
  { g with
    links := g.links.link root other.id
    classes := (g.classes.setIfInBounds other.id none).modify root (Option.map fun c =>
      { c with
        data := data
        nodes := c.nodes ++ other.nodes
        parents := c.parents ++ other.parents })
    pending := pushUsages other.parents g.pending
    foldPending := foldPending
    unionCount := g.unionCount + 1
    clean := false }

/-- Join the class `other` into the class `root`, unless their constants conflict. -/
def mergeInto (root other : EClass) : Update Bool :=
  match mergeConstants root.data other.data with
  | .error (left, right) => throw ⟨left, right, root.id, other.id⟩
  | .ok data => do
    modify (·.absorb root.id other data)
    return true

/-- Join two classes, without drawing consequences from the constant.  The class with more
parents stays; of two with equally many, the first.  Tells whether the classes differed. -/
def merge (a b : ClassId) : Update Bool := do
  let g ← get
  match g.classAt? a, g.classAt? b with
  | some x, some y =>
    if x.id = y.id then return false
    else if x.parents.size < y.parents.size then mergeInto y x
    else mergeInto x y
  | _, _ => return false

/-- Find the node, or enter it; no consequences are drawn. -/
def intern (n : ENode) : Update ClassId := do
  let g ← get
  match g.memo[n]? with
  | some id => return g.find id
  | none =>
    set (g.enter n)
    return g.links.size

/-- Draw the consequences of a constant that has become known: the class holds the leaf of
the constant, and none but leaves. -/
def settle (id : ClassId) : Update Unit := do
  match (← get).constantAt? id with
  | none => return ()
  | some c =>
    let leaf ← intern (.leaf (.const c))
    let _ ← merge id leaf
    modify fun g => g.modifyClass (g.find id) EClass.prune

/-- Add a node over classes of the graph; gives the class that holds it.  Nothing changes
if the node is present already. -/
def add (n : ENode) : Update ClassId := do
  let g ← get
  let n := g.canonicalize n
  match g.memo[n]? with
  | some id => return g.find id
  | none =>
    let id := g.links.size
    set (g.enter n)
    settle id
    return (← get).find id

/-- Add nodes of a term in order, the earlier ones being in the classes `ids`. -/
def addNodes : List (Node Nat) → Array ClassId → Update (Array ClassId)
  | [], ids => return ids
  | n :: ns, ids =>
    match n.mapM (ids[·]?) with
    | none => addNodes ns ids
    | some n => do
      let id ← add n
      addNodes ns (ids.push id)

/-- Add all nodes of a term; gives the class of its root, unless there is none. -/
def addTerm (t : Term) : Update (Option ClassId) := do
  let ids ← addNodes t.nodes.toList #[]
  return ids.back?.map (← get).find

/-- Make two classes equal.  Tells whether they differed. -/
def union (a b : ClassId) : Update Bool := do
  if ← merge a b then
    settle a
    return true
  else return false

/-! ## Lemmas -/

theorem mergeConstants_eq_error {a b : Option Constant} {l r : Constant} :
    mergeConstants a b = .error (l, r) ↔ a = some l ∧ b = some r ∧ l ≠ r := by
  rcases a with _ | x <;> rcases b with _ | y <;> simp only [mergeConstants, reduceCtorEq,
    false_and, and_false, Option.some.injEq]
  by_cases h : x = y
  · subst h
    simp only [if_true, reduceCtorEq, false_iff]
    rintro ⟨rfl, rfl, hne⟩
    exact hne rfl
  · simp only [h, if_false, Except.error.injEq, Prod.mk.injEq]
    exact ⟨fun ⟨hl, hr⟩ => ⟨hl, hr, by rwa [← hl, ← hr]⟩, fun ⟨hl, hr, _⟩ => ⟨hl, hr⟩⟩

end EGraph

end EqSat
