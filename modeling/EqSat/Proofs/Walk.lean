import EqSat.Proofs.PostOrder

/-!
# Laying out with a stack

A tree can be laid out in a loop, without recursion on it.  A stack holds what is still to be done:
an item that has not been looked at is checked, and if it is an operator it goes back on the stack
behind its operands, so that it is met again when they have been laid out.  The last nodes of what
is laid out are noted on a second stack, from which an operator takes as many as it has operands.

The items may be of any kind that shows the node at its head.  The loop then never runs out of
operands.  It refuses what the recursion refuses, for the same cause, and lays out the same nodes.

    walk_eq          the loop on one item, in front of others
    layOut_eq        the loop on one item
-/

namespace EqSat

variable {σ ε : Type}

/-- Items that show the node at their head, over smaller items, or are refused. -/
structure Layered (σ ε : Type) where
  view : σ → Except ε (Node σ)
  size : σ → Nat
  total_lt : ∀ {x : σ} {n : Node σ}, view x = .ok n → (n.map size).total < size x

/-- Why the loop stops early. -/
inductive WalkError (ε : Type) where
  | refused (cause : ε)
  | missingOperand
deriving DecidableEq, Repr

/-- The operator over the last of the noted positions, and the positions that are left. -/
def Node.takeOperands : Node σ → List Nat → Option (Node Nat × List Nat)
  | .leaf l, ids => some (.leaf l, ids)
  | .unary op _, a :: ids => some (.unary op a, ids)
  | .binary op _ _, b :: a :: ids => some (.binary op a b, ids)
  | _, _ => none

namespace Layered

/-- What an entry of the stack has still to go through: an item that waits for its operands is only
laid out, the others are looked at before. -/
def weight (L : Layered σ ε) : σ × Bool → Nat
  | (_, true) => 1
  | (x, false) => 2 * L.size x

theorem sum_weight_children (L : Layered σ ε) (n : Node σ) :
    ((n.children.map (·, false)).map L.weight).sum = 2 * (n.map L.size).total := by
  cases n with
  | leaf l => rfl
  | unary op a => simp [Node.children, Node.map, Node.total, weight]
  | binary op a b =>
    simp only [Node.children, Node.map, Node.total, weight, List.map_cons, List.map_nil,
      List.sum_cons, List.sum_nil]
    omega

/-- The loop, with the positions noted so far, the last first; it ends with the position of the
last node. -/
def walk (L : Layered σ ε) : List (σ × Bool) → List Nat → Term → Except (WalkError ε) (Term × Nat)
  | [], id :: _, t => .ok (t, id)
  | [], [], _ => .error .missingOperand
  | (x, ready) :: stack, ids, t =>
    match _ : L.view x with
    | .error e => .error (.refused e)
    | .ok n =>
      if _ : n.isLeaf || ready then
        match n.takeOperands ids with
        | none => .error .missingOperand
        | some (m, ids) => match t.push? m with
          | none => .error .missingOperand
          | some u => walk L stack (t.size :: ids) u
      else walk L (n.children.map (·, false) ++ (x, true) :: stack) ids t
termination_by stack => (stack.map L.weight).sum
decreasing_by
  · have hlt := L.total_lt ‹L.view x = .ok n›
    cases ready <;> simp only [List.map_cons, List.sum_cons, weight] <;> omega
  · have hlt := L.total_lt ‹L.view x = .ok n›
    have hready : ready = false := by
      cases ready
      · rfl
      · simp at *
    rw [hready, List.map_append, List.sum_append, sum_weight_children]
    simp only [List.map_cons, List.sum_cons, weight]
    omega

/-- Lay out one item behind the nodes of a term. -/
def layOut (L : Layered σ ε) (t : Term) (x : σ) : Except (WalkError ε) (Term × Nat) :=
  L.walk [(x, false)] [] t

variable {L : Layered σ ε} {x : σ} {n : Node σ} {ready : Bool} {stack : List (σ × Bool)}
  {ids : List Nat} {t : Term}

/-! ## Steps of the loop -/

theorem walk_refused {e : ε} (h : L.view x = .error e) :
    L.walk ((x, ready) :: stack) ids t = .error (.refused e) := by
  rw [walk]
  split
  · next e' h' => rw [h] at h'; cases h'; rfl
  · next n h' => rw [h] at h'; cases h'

/-- An operator is put back behind its operands. -/
theorem walk_open (h : L.view x = .ok n) (hn : n.isLeaf = false) :
    L.walk ((x, false) :: stack) ids t =
      L.walk (n.children.map (·, false) ++ (x, true) :: stack) ids t := by
  rw [walk]
  split
  · next e h' => rw [h] at h'; cases h'
  · next m h' =>
    rw [h] at h'
    cases h'
    rw [dif_neg (by simp [hn])]

/-- A node whose operands are in place is added. -/
theorem walk_place {m : Node Nat} {ids' : List Nat} (h : L.view x = .ok n)
    (hready : n.isLeaf = true ∨ ready = true) (htake : n.takeOperands ids = some (m, ids'))
    (hm : ∀ c ∈ m.children, c < t.size) :
    L.walk ((x, ready) :: stack) ids t = L.walk stack (t.size :: ids') (t.push m hm) := by
  rw [walk]
  split
  · next e h' => rw [h] at h'; cases h'
  · next n' h' =>
    rw [h] at h'
    cases h'
    rw [dif_pos (by simpa using hready), htake]
    dsimp only
    rw [Term.push?, dif_pos hm]

/-! ## The loop on one item -/

/-- Reading an item by recursion: a node is looked at before its operands, the left operand before
the right one. -/
inductive Reads (L : Layered σ ε) : σ → Except ε Tree → Prop
  | refused {x : σ} {e : ε} : L.view x = .error e → Reads L x (.error e)
  | leaf {x : σ} {l : Leaf} : L.view x = .ok (.leaf l) → Reads L x (.ok (.leaf l))
  | unary {x a : σ} {op : UnaryOp} {r : Except ε Tree} : L.view x = .ok (.unary op a) →
      Reads L a r → Reads L x (r.map (.unary op))
  | left {x a b : σ} {op : BinaryOp} {e : ε} : L.view x = .ok (.binary op a b) →
      Reads L a (.error e) → Reads L x (.error e)
  | binary {x a b : σ} {op : BinaryOp} {u : Tree} {r : Except ε Tree} :
      L.view x = .ok (.binary op a b) → Reads L a (.ok u) → Reads L b r →
      Reads L x (r.map (.binary op u))

/-- How the loop goes on when an item has been read: what was read is added, and its last position
is noted. -/
def resume (L : Layered σ ε) (stack : List (σ × Bool)) (ids : List Nat) (t : Term) :
    Except ε Tree → Except (WalkError ε) (Term × Nat)
  | .error e => .error (.refused e)
  | .ok u => L.walk stack (((t.addTree u).1.size - 1) :: ids) (t.addTree u).1

theorem resume_of_push {s : Term} {m : Node Nat} {hm : ∀ c ∈ m.children, c < s.size} {u : Tree}
    (h : (t.addTree u).1 = s.push m hm) :
    L.resume stack ids t (.ok u) = L.walk stack (s.size :: ids) (s.push m hm) := by
  rw [resume, h, Term.size_push, Nat.add_sub_cancel]

/-- **The loop on one item**, in front of others, does what the recursion does. -/
theorem walk_eq {r : Except ε Tree} (h : L.Reads x r) (stack : List (σ × Bool)) (ids : List Nat)
    (t : Term) : L.walk ((x, false) :: stack) ids t = L.resume stack ids t r := by
  induction h generalizing stack ids t with
  | refused hview => exact walk_refused hview
  | leaf hview =>
    rw [walk_place hview (.inl rfl) rfl (by simp [Node.children])]
    exact (resume_of_push rfl).symm
  | @unary x a op r hview _ ih =>
    have hopen : L.walk ((x, false) :: stack) ids t =
        L.walk ((a, false) :: (x, true) :: stack) ids t := walk_open hview rfl
    rw [hopen, ih]
    cases r with
    | error e => rfl
    | ok u =>
      have hchild : ∀ c ∈ (Node.unary op ((t.addTree u).1.size - 1)).children,
          c < (t.addTree u).1.size := by
        have := (t.addTree u).2
        simp only [Node.children, List.mem_singleton, forall_eq]
        omega
      show L.walk ((x, true) :: stack) (((t.addTree u).1.size - 1) :: ids) (t.addTree u).1 = _
      rw [walk_place hview (.inr rfl) rfl hchild]
      exact (resume_of_push rfl).symm
  | @left x a b op e hview _ ih =>
    have hopen : L.walk ((x, false) :: stack) ids t =
        L.walk ((a, false) :: (b, false) :: (x, true) :: stack) ids t := walk_open hview rfl
    rw [hopen, ih]
    rfl
  | @binary x a b op u r hview _ _ iha ihb =>
    have hopen : L.walk ((x, false) :: stack) ids t =
        L.walk ((a, false) :: (b, false) :: (x, true) :: stack) ids t := walk_open hview rfl
    rw [hopen, iha]
    show L.walk ((b, false) :: (x, true) :: stack) (((t.addTree u).1.size - 1) :: ids)
      (t.addTree u).1 = _
    rw [ihb]
    cases r with
    | error e => rfl
    | ok v =>
      have hchild : ∀ c ∈ (Node.binary op ((t.addTree u).1.size - 1)
          (((t.addTree u).1.addTree v).1.size - 1)).children,
          c < ((t.addTree u).1.addTree v).1.size := by
        have := (t.addTree u).2
        have := ((t.addTree u).1.addTree v).2
        simp only [Node.children, List.mem_cons, List.not_mem_nil, or_false, forall_eq_or_imp,
          forall_eq]
        omega
      show L.walk ((x, true) :: stack) ((((t.addTree u).1.addTree v).1.size - 1) ::
        ((t.addTree u).1.size - 1) :: ids) ((t.addTree u).1.addTree v).1 = _
      rw [walk_place hview (.inr rfl) rfl hchild]
      exact (resume_of_push rfl).symm

/-- **Laying out an item** adds the tree that it reads as, and ends at the tree's last node; it is
refused only where the recursion refuses it. -/
theorem layOut_eq {r : Except ε Tree} (h : L.Reads x r) (t : Term) :
    L.layOut t x = (r.mapError .refused).map fun u =>
      ((t.addTree u).1, (t.addTree u).1.size - 1) := by
  rw [layOut, walk_eq h]
  cases r with
  | error e => rfl
  | ok u => rw [resume, walk]; rfl

end Layered
end EqSat
