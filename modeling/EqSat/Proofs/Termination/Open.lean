import EqSat.Simplify

/-!
# Open-ended programs

Here nothing bounds what a call does.  Adding a node, joining two classes and settling a class
call one another; a rebuild goes on while one of the worklists holds a usage, and a run until a
round changes nothing or a limit is reached.  What a call does is a program of its own
(`Open.body`), and a program comes to an end if all calls on its way do (`Open.Ends`).  One that
goes on for ever has no end.  A conflict cuts a program short, and leaves the state as it is at
that moment.

Bounded programs end everywhere.  Only joins that draw no consequences are taken over from them.

    Ends.unique    a program ends in one way only
-/

namespace EqSat

/-- A call that may make others, with the state that it acts on and what it gives. -/
inductive Open.Call : Type → Type → Type
  /-- Go up to the root, pointing every other id on the way to its grandparent. -/
  | find (x : Nat) : Call UnionFind Nat
  /-- Add a node over classes of the graph; gives the class that holds it. -/
  | add (n : ENode) : Call EGraph ClassId
  /-- Make two classes equal.  Tells whether they differed. -/
  | union (a b : ClassId) : Call EGraph Bool
  /-- Draw the consequences of a constant that is known of a class. -/
  | settle (id : ClassId) : Call EGraph Unit
  /-- Repair usages while there are any; `unions` counts the joins. -/
  | repairAll (unions : Nat) : Call EGraph Nat
  /-- Evaluate usages while there are any. -/
  | refoldAll : Call EGraph Unit
  /-- Empty both worklists, the one and then the other, while one of them holds a usage. -/
  | drain (unions : Nat) : Call EGraph Nat
  /-- Do rounds until nothing changes or a limit is reached. -/
  | rounds : Call Runner StopReason

/-- A program over calls: bounded programs and calls one after the other, and, of a runner,
programs over its graph. -/
inductive Open : Type → Type → Type 1
  | of {σ α : Type} (f : EStateM Conflict σ α) : Open σ α
  | call {σ α : Type} (c : Open.Call σ α) : Open σ α
  | bind {σ α β : Type} (x : Open σ α) (y : α → Open σ β) : Open σ β
  | onGraph {α : Type} (x : Open EGraph α) : Open Runner α

namespace Open

instance {σ : Type} : Monad (Open σ) where
  pure a := .of (pure a)
  bind := .bind

instance {σ : Type} : MonadStateOf σ (Open σ) where
  get := .of get
  set s := .of (set s)
  modifyGet f := .of (modifyGet f)

/-! ## Rebuilding -/

/-- Look at one usage again: a congruent node that is present already joins the classes. -/
def repair (u : Usage) : Open EGraph Bool := do
  let g ← get
  let n := g.canonicalize u.1
  let present := g.memo[n]?
  set { g with memo := g.memo.insert n u.2 }
  match present with
  | some id => call (.union id u.2)
  | none => return false

/-- Evaluate the node of a usage again and give its class the constant, if there is one. -/
def refold (u : Usage) : Open EGraph Unit := do
  let g ← get
  match g.classAt? u.2 with
  | none => return ()
  | some c =>
    match mergeConstants c.data (g.foldNode u.1) with
    | .error (left, right) => of (throw ⟨left, right, c.id, c.id⟩)
    | .ok data =>
      if data = c.data then return ()
      let foldPending := pushUsages c.parents g.foldPending
      set { g.modifyClass c.id ({ · with data := data }) with foldPending := foldPending }
      call (.settle c.id)

/-- Restore congruence and the constants of all classes.  Gives the number of joins. -/
def rebuild : Open EGraph Nat := do
  let unions ← call (.drain 0)
  modify EGraph.tidy
  return unions

/-! ## Terms and rules -/

/-- Add nodes of a term in order, the earlier ones being in the classes `ids`. -/
def addNodes : List (Node Nat) → Array ClassId → Open EGraph (Array ClassId)
  | [], ids => return ids
  | n :: ns, ids =>
    match n.mapM (ids[·]?) with
    | none => addNodes ns ids
    | some n => do
      let id ← call (.add n)
      addNodes ns (ids.push id)

/-- Add all nodes of a term; gives the class of its root, unless there is none. -/
def addTerm (t : Term) : Open EGraph (Option ClassId) := do
  let ids ← addNodes t.nodes.toList #[]
  return ids.back?.map (← get).find

/-- Add the term that the pattern describes under `s`; gives its class. -/
def build (s : Subst) : Pattern → Open EGraph ClassId
  | .hole x => do return (← get).find (s.get x)
  | .leaf l => call (.add (.leaf l))
  | .unary op p => do
    let a ← build s p
    call (.add (.unary op a))
  | .binary op p q => do
    let a ← build s p
    let b ← build s q
    call (.add (.binary op a b))

/-- Apply a rule to one match; tells whether that joined two classes. -/
def applyMatch (r : Rule) (m : Match) : Open EGraph Bool := do
  let g ← get
  if r.guard.all (·.passes g m.2) then
    let built ← build m.2 r.rhs
    call (.union m.1 built)
  else return false

/-- Apply a rule to each match in order, `joined` classes having been joined before. -/
def applyFrom (r : Rule) : List Match → Nat → Open EGraph Nat
  | [], joined => return joined
  | m :: ms, joined => do
    let changed ← applyMatch r m
    applyFrom r ms (if changed then joined + 1 else joined)

/-- Apply the rules to their matches in order, up to the one that makes the graph larger
than `nodeLimit`. -/
def applyFound (nodeLimit : Nat) : List (Rule × List Match) → Tally → Open EGraph Tally
  | [], applied => return applied
  | (r, ms) :: rest, applied => do
    if ms.isEmpty then applyFound nodeLimit rest applied
    else
      let joined ← applyFrom r ms 0
      let applied := if joined = 0 then applied else applied.count r.name joined
      if (← get).numNodes > nodeLimit then return applied
      else applyFound nodeLimit rest applied

/-- One round. -/
def saturateOnce (rules : List Rule) (nodeLimit index : Nat) : Open EGraph Iteration := do
  let g ← get
  let unions := g.unionCount
  let nodes := g.numNodes
  let classes := g.numClasses
  let found := rules.map fun r => (r, r.search g)
  let applied ← applyFound nodeLimit found []
  let rebuildUnions ← rebuild
  let g ← get
  return {
    index := index
    found := EGraph.tallyFound found
    applied := applied
    rebuildUnions := rebuildUnions
    nodes := g.numNodes
    classes := g.numClasses
    saturated := g.unionCount == unions && g.numNodes == nodes && g.numClasses == classes }

/-! ## Calls -/

/-- What a call does. -/
def body : {σ α : Type} → Call σ α → Open σ α
  | _, _, .find x => do
    let u ← get
    if u.parent x = x then return x
    let grandparent := u.parent (u.parent x)
    set (u.setParent x grandparent)
    call (.find grandparent)
  | _, _, .add n => do
    let g ← get
    let n := g.canonicalize n
    match g.memo[n]? with
    | some id => return g.find id
    | none =>
      let id := g.links.size
      set (g.enter n)
      call (.settle id)
      return (← get).find id
  | _, _, .union a b => do
    if ← of (EGraph.merge a b) then
      call (.settle a)
      return true
    else return false
  -- the class gets the leaf of its constant, and keeps only leaves
  | _, _, .settle id => do
    match (← get).constantAt? id with
    | none => return ()
    | some c =>
      let leaf ← call (.add (.leaf (.const c)))
      let _ ← call (.union id leaf)
      modify fun g => g.modifyClass (g.find id) EClass.prune
  | _, _, .repairAll unions => do
    let g ← get
    match g.pending with
    | [] => return unions
    | u :: rest =>
      set { g with pending := rest }
      let joined ← repair u
      call (.repairAll (if joined then unions + 1 else unions))
  | _, _, .refoldAll => do
    let g ← get
    match g.foldPending with
    | [] => return ()
    | u :: rest =>
      set { g with foldPending := rest }
      refold u
      call .refoldAll
  | _, _, .drain unions => do
    let g ← get
    if g.pending = [] ∧ g.foldPending = [] then return unions
    let unions ← call (.repairAll unions)
    call .refoldAll
    call (.drain unions)
  | _, _, .rounds => do
    let r ← get
    if r.report.iterations.size ≥ r.limits.iterations then return .iterationLimit
    if r.egraph.numNodes > r.limits.nodes then return .nodeLimit
    let it ← onGraph (saturateOnce r.rules r.limits.nodes r.report.iterations.size)
    modify fun r => { r with
      report := { r.report with iterations := r.report.iterations.push it } }
    if it.saturated then return .saturated
    call .rounds

/-! ## Runs -/

/-- Add a term and rebuild; gives the class of its root, which becomes the next of the roots. -/
def seed (t : Term) : Open Runner (Option ClassId) := do
  match ← onGraph (addTerm t) with
  | none => return none
  | some id =>
    modify fun r => { r with roots := r.roots.push id }
    let _ ← onGraph rebuild
    return some id

/-- Run until nothing changes or a limit is reached, counting the rounds of earlier runs. -/
def run : Open Runner StopReason := do
  let reason ← call .rounds
  modify fun r => { r with report := { r.report with stopReason := some reason } }
  return reason

/-- Seed a runner with a term and run it. -/
def saturate (t : Term) : Open Runner (Option ClassId) := do
  match ← seed t with
  | none => return none
  | some root =>
    let _ ← run
    return some ((← get).egraph.find root)

/-! ## Coming to an end -/

/-- The program comes to an end: how it ends, and the state that it leaves. -/
inductive Ends : {σ α : Type} → Open σ α → σ → EStateM.Result Conflict σ α → Prop
  | of {σ α : Type} (f : EStateM Conflict σ α) (s : σ) : Ends (.of f) s (f s)
  | call {σ α : Type} {c : Call σ α} {s : σ} {o : EStateM.Result Conflict σ α} :
    Ends (body c) s o → Ends (.call c) s o
  | bind {σ α β : Type} {x : Open σ α} {y : α → Open σ β} {s s' : σ} {a : α}
    {o : EStateM.Result Conflict σ β} :
    Ends x s (.ok a s') → Ends (y a) s' o → Ends (.bind x y) s o
  | conflict {σ α β : Type} {x : Open σ α} {y : α → Open σ β} {s s' : σ} {e : Conflict} :
    Ends x s (.error e s') → Ends (.bind x y) s (.error e s')
  | onGraph {α : Type} {x : Open EGraph α} {r : Runner} {o : EStateM.Result Conflict EGraph α} :
    Ends x r.egraph o → Ends (.onGraph x) r (Runner.onGraph (fun _ => o) r)

namespace Ends

variable {σ α β γ : Type} {x : Open σ α} {y : α → Open σ β} {s s' : σ}

/-- A program ends in one way only. -/
theorem unique {o o' : EStateM.Result Conflict σ α} (h : x.Ends s o) (h' : x.Ends s o') :
    o = o' := by
  induction h with
  | of f s =>
    cases h'
    rfl
  | call _ ih =>
    cases h' with
    | call h' => exact ih h'
  | bind _ _ ihx ihy =>
    cases h' with
    | bind hx hy =>
      cases ihx hx
      exact ihy hy
    | conflict hx => cases ihx hx
  | conflict _ ih =>
    cases h' with
    | bind hx _ => cases ih hx
    | conflict hx =>
      cases ih hx
      rfl
  | onGraph _ ih =>
    cases h' with
    | onGraph h' => rw [ih h']

/-! ### Programs one after the other -/

theorem of_pure (a : α) (s : σ) : (pure a : Open σ α).Ends s (.ok a s) := .of (pure a) s

theorem after_get {y : σ → Open σ α} {o : EStateM.Result Conflict σ α} (h : (y s).Ends s o) :
    (get >>= y : Open σ α).Ends s o :=
  .bind (.of get s) h

theorem after_set {y : PUnit → Open σ α} {o : EStateM.Result Conflict σ α}
    (h : (y ⟨⟩).Ends s' o) : (set s' >>= y : Open σ α).Ends s o :=
  .bind (.of (set s') s) h

theorem of_modify (f : σ → σ) (s : σ) : (modify f : Open σ PUnit).Ends s (.ok ⟨⟩ (f s)) :=
  .of (modify f) s

theorem after_modify {f : σ → σ} {y : PUnit → Open σ α} {o : EStateM.Result Conflict σ α}
    (h : (y ⟨⟩).Ends (f s) o) : (modify f >>= y : Open σ α).Ends s o :=
  .bind (of_modify f s) h

theorem bind_inv {o : EStateM.Result Conflict σ β} (h : (x >>= y).Ends s o) :
    (∃ a s', x.Ends s (.ok a s') ∧ (y a).Ends s' o) ∨
      ∃ e s', x.Ends s (.error e s') ∧ o = .error e s' := by
  cases h with
  | bind hx hy => exact .inl ⟨_, _, hx, hy⟩
  | conflict hx => exact .inr ⟨_, _, hx, rfl⟩

/-- What comes to an end instead of the first program may stand for it. -/
theorem bind_left {x' : Open σ α} {o : EStateM.Result Conflict σ β}
    (hx : ∀ o, x.Ends s o → x'.Ends s' o) (h : (x >>= y).Ends s o) : (x' >>= y).Ends s' o := by
  rcases h.bind_inv with ⟨a, s₁, ha, hy⟩ | ⟨e, s₁, he, rfl⟩
  · exact .bind (hx _ ha) hy
  · exact .conflict (hx _ he)

theorem assoc {z : β → Open σ γ} {o : EStateM.Result Conflict σ γ}
    (h : (x >>= fun a => y a >>= z).Ends s o) : (x >>= y >>= z).Ends s o := by
  rcases h.bind_inv with ⟨a, s₁, ha, hyz⟩ | ⟨e, s₁, he, rfl⟩
  · exact hyz.bind_left fun _ hy => .bind ha hy
  · exact .conflict (.conflict he)

end Ends

end Open

end EqSat
