/-!
# Union-find

Disjoint sets over the ids below `size`, as an array of parents in which a root is its own
parent.  `root` follows the parents; `find` does so too and on its way makes every other
node point to its grandparent.

    u.parent x = x → u.root x = x                       (root_eq_self)
    (u.find x).1.size = u.size                          (size_find)
-/

namespace EqSat

/-- Disjoint sets of ids. -/
structure UnionFind where
  parents : Array Nat
deriving DecidableEq, Repr, Inhabited

namespace UnionFind

def empty : UnionFind := ⟨#[]⟩

def size (u : UnionFind) : Nat := u.parents.size

/-- The next node on the way to the root; an id outside the sets is alone. -/
def parent (u : UnionFind) (x : Nat) : Nat := u.parents[x]?.getD x

/-- Add a new id, alone in its set. -/
def makeSet (u : UnionFind) : UnionFind := ⟨u.parents.push u.size⟩

/-- Follow at most `fuel` parents. -/
def rootWithin (u : UnionFind) : Nat → Nat → Nat
  | 0, x => x
  | fuel + 1, x =>
    let p := u.parent x
    if p = x then x else u.rootWithin fuel p

/-- The representative of the set of `x`: no path is longer than the number of ids. -/
def root (u : UnionFind) (x : Nat) : Nat := u.rootWithin u.size x

/-- Point `x` to `p`. -/
def setParent (u : UnionFind) (x p : Nat) : UnionFind := ⟨u.parents.setIfInBounds x p⟩

/-- Halve the path above `x`, at most `fuel` steps of it. -/
def findWithin : Nat → UnionFind → Nat → UnionFind × Nat
  | 0, u, x => (u, x)
  | fuel + 1, u, x =>
    let p := u.parent x
    if p = x then (u, x)
    else
      let grandparent := u.parent p
      findWithin fuel (u.setParent x grandparent) grandparent

/-- The representative of the set of `x`, halving the path on the way. -/
def find (u : UnionFind) (x : Nat) : UnionFind × Nat := findWithin u.size u x

/-- Put the set of the root `other` under the root `root`. -/
def link (u : UnionFind) (root other : Nat) : UnionFind := u.setParent other root

/-- Join the sets of `x` and `y`; the representative of `x` represents both. -/
def union (u : UnionFind) (x y : Nat) : UnionFind × Nat :=
  let (u, a) := u.find x
  let (u, b) := u.find y
  (u.link a b, a)

/-! ## Lemmas -/

theorem size_makeSet (u : UnionFind) : u.makeSet.size = u.size + 1 := by
  simp [makeSet, size]

theorem size_setParent (u : UnionFind) (x p : Nat) : (u.setParent x p).size = u.size := by
  simp [setParent, size]

theorem size_link (u : UnionFind) (root other : Nat) : (u.link root other).size = u.size :=
  size_setParent u other root

theorem parent_setParent (u : UnionFind) {x : Nat} (hx : x < u.size) (p y : Nat) :
    (u.setParent x p).parent y = if y = x then p else u.parent y := by
  by_cases hy : y = x
  · subst hy
    have hp : y < u.parents.size := hx
    simp [setParent, parent, hp]
  · have hne : x ≠ y := fun h => hy h.symm
    rw [if_neg hy, parent, parent, setParent, Array.getElem?_setIfInBounds_ne hne]

/-- A new id changes nothing on the ways to the roots. -/
theorem parent_makeSet (u : UnionFind) (x : Nat) : u.makeSet.parent x = u.parent x := by
  unfold parent makeSet
  rw [Array.getElem?_push]
  split
  · next h =>
    subst h
    simp [size]
  · rfl

theorem rootWithin_eq_self {u : UnionFind} {x : Nat} (h : u.parent x = x) (fuel : Nat) :
    u.rootWithin fuel x = x := by
  cases fuel with
  | zero => rfl
  | succ fuel => simp [rootWithin, h]

theorem root_eq_self {u : UnionFind} {x : Nat} (h : u.parent x = x) : u.root x = x :=
  rootWithin_eq_self h u.size

theorem size_findWithin (fuel : Nat) (u : UnionFind) (x : Nat) :
    (findWithin fuel u x).1.size = u.size := by
  induction fuel generalizing u x with
  | zero => rfl
  | succ fuel ih =>
    unfold findWithin
    by_cases h : u.parent x = x
    · simp [h]
    · simp only [h, if_false]
      rw [ih, size_setParent]

theorem size_find (u : UnionFind) (x : Nat) : (u.find x).1.size = u.size :=
  size_findWithin u.size u x

end UnionFind

end EqSat
