import EqSat.Proofs.Matching
import EqSat.Simplify

/-!
# The states of a saturation

A saturation takes small steps: it applies a rule to one match, which was found in the present
graph or in an earlier one; it repairs or evaluates one usage; it tidies a graph on which nothing
is left to be done.  A history lists the graphs from a start on, the latest first.  It ends where
two constants conflict.

What one step preserves holds along every history, and a run is one.

    History.upheld      one origin gives all graphs of a history their values
    follows_run         the graphs of a run, from the seeded graph on, are a history
-/

namespace EqSat

open EGraph

/-- The conflict that a step ends with. -/
def conflict? {α : Type} : EStateM.Result Conflict EGraph α → Option Conflict
  | .ok _ _ => none
  | .error e _ => some e

/-- What a step that succeeds gives, and the state that it leaves. -/
def success? {ε σ α : Type} : EStateM.Result ε σ α → Option (α × σ)
  | .ok a s => some (a, s)
  | .error _ _ => none

theorem eq_ok_of_success? {ε σ α : Type} {r : EStateM.Result ε σ α} {a : α} {s : σ}
    (h : success? r = some (a, s)) : r = .ok a s := by
  cases r with
  | ok a' s' =>
    cases h
    rfl
  | error e s' => cases h

/-- The graphs of a saturation from `start` on, and the conflict that has ended it. -/
inductive History (rules : List Rule) (start : EGraph) : List EGraph → Option Conflict → Prop where
  | start : History rules start [start] none
  | apply {g past r m seen} (h : History rules start (g :: past) none) (hr : r ∈ rules)
    (hseen : seen ∈ g :: past) (hm : m ∈ r.search seen) :
    History rules start (left (r.applyMatch m g) :: g :: past) (conflict? (r.applyMatch m g))
  | repair {g past u rest} (h : History rules start (g :: past) none) (hu : g.pending = u :: rest) :
    History rules start (left (repair u { g with pending := rest }) :: g :: past)
      (conflict? (repair u { g with pending := rest }))
  | refold {g past u rest} (h : History rules start (g :: past) none)
    (hu : g.foldPending = u :: rest) :
    History rules start (left (refold u { g with foldPending := rest }) :: g :: past)
      (conflict? (refold u { g with foldPending := rest }))
  | tidy {g past} (h : History rules start (g :: past) none) (hp : g.pending = [])
    (hf : g.foldPending = []) : History rules start (g.tidy :: g :: past) none

variable {D : Type} {I : Meaning D} {g g' start : EGraph} {o o' o₀ : Origin D} {rules : List Rule}
  {past : List EGraph} {stop : Option Conflict} {P : EGraph → Origin D → Prop}

/-! ## Invariants of a history -/

/-- How a step may end, with `P` kept. -/
def EndsWith {α : Type} (I : Meaning D) (P : EGraph → Origin D → Prop) (g : EGraph)
    (o : Origin D) : EStateM.Result Conflict EGraph α → Prop
  | .ok _ g' => ∃ o', Valid I g' o' ∧ P g' o' ∧ Extends (fun _ => True) g o g' o'
  | .error e g' => ∃ o', Lawful I g' o' ∧ Extends (fun _ => True) g o g' o' ∧ Clash I e

/-- The rules keep `P`, and so does every step that adds no nodes but leaves of constants. -/
structure Keeps (I : Meaning D) (rules : List Rule) (P : EGraph → Origin D → Prop) : Prop where
  later : ∀ {g o g' o'}, Valid I g o → P g o → Valid I g' o' →
    Extends (fun _ => False) g o g' o' → P g' o'
  apply : ∀ {g o r m}, r ∈ rules → Valid I g o → P g o → r.lhs.Instance I g o m →
    EndsWith I P g o (r.applyMatch m g)

theorem Ends.endsWith {α : Type} {new : ENode → Prop} {r : EStateM.Result Conflict EGraph α}
    (h : Ends I new g o r) (hP : ∀ g' o', Valid I g' o' → Extends new g o g' o' → P g' o') :
    EndsWith I P g o r := by
  cases r with
  | ok a g' =>
    obtain ⟨o', hvalid, hext⟩ := h
    exact ⟨o', hvalid, hP g' o' hvalid hext, hext.mono fun _ _ => trivial⟩
  | error e g' =>
    obtain ⟨o', hlawful, hext, hclash⟩ := h
    exact ⟨o', hlawful, hext.mono fun _ _ => trivial, hclash⟩

theorem EndsWith.imp {α : Type} {Q : EGraph → Origin D → Prop}
    {r : EStateM.Result Conflict EGraph α}
    (h : EndsWith I P g o r)
    (hPQ : ∀ g' o', Valid I g' o' → P g' o' → Extends (fun _ => True) g o g' o' → Q g' o') :
    EndsWith I Q g o r := by
  cases r with
  | ok a g' =>
    obtain ⟨o', hvalid, hP, hext⟩ := h
    exact ⟨o', hvalid, hPQ g' o' hvalid hP hext, hext⟩
  | error e g' => exact h

theorem EndsWith.pure {α : Type} {a : α} (h : Valid I g o) (hP : P g o) :
    EndsWith I P g o (.ok a g) := ⟨o, h, hP, .refl⟩

/-- A step and what follows it. -/
theorem EndsWith.bind {α β : Type} {Q : EGraph → Origin D → Prop} {s : Update α}
    {f : α → Update β} (h : EndsWith I P g o (s g))
    (hf : ∀ a g' o', s g = .ok a g' → Valid I g' o' → P g' o' →
      Extends (fun _ => True) g o g' o' → EndsWith I Q g' o' (f a g')) :
    EndsWith I Q g o ((s >>= f) g) := by
  cases hrun : s g with
  | error e g' =>
    rw [hrun] at h
    rw [bind_error hrun]
    exact h
  | ok a g' =>
    rw [hrun] at h
    obtain ⟨o', hvalid, hP, hext⟩ := h
    have hrest := hf a g' o' hrun hvalid hP hext
    rw [bind_ok hrun]
    cases hrest' : f a g' with
    | error e g'' =>
      rw [hrest'] at hrest
      obtain ⟨o'', hlawful, hext', hclash⟩ := hrest
      exact ⟨o'', hlawful, hext.trans hext', hclash⟩
    | ok b g'' =>
      rw [hrest'] at hrest
      obtain ⟨o'', hvalid', hQ, hext'⟩ := hrest
      exact ⟨o'', hvalid', hQ, hext.trans hext'⟩

/-- Rules that hold in the meaning keep the graph in order, with nothing else to keep. -/
theorem keeps_of_holds (h : ∀ r ∈ rules, r.Holds I) : Keeps I rules fun _ _ => True where
  later := fun _ _ _ _ => trivial
  apply := fun hr hvalid _ hm =>
    Ends.endsWith (Rule.applyMatch_spec hvalid (h _ hr) hm) fun _ _ _ _ => trivial

/-- What holds along a history: the origin fits all of its graphs, and they only grow. -/
structure Upheld (I : Meaning D) (P : EGraph → Origin D → Prop) (start : EGraph) (o₀ : Origin D)
    (g : EGraph) (past : List EGraph) (stop : Option Conflict) (o : Origin D) : Prop where
  since : Extends (fun _ => True) start o₀ g o
  seen : ∀ s ∈ g :: past, Lawful I s o ∧ Extends (fun _ => True) s o g o
  running : stop = none → Valid I g o ∧ P g o
  stopped : ∀ e, stop = some e → Clash I e

/-- One more step. -/
theorem Upheld.step {α : Type} {r : EStateM.Result Conflict EGraph α}
    (h : Upheld I P start o₀ g past none o) (hr : EndsWith I P g o r) :
    ∃ o', Upheld I P start o₀ (left r) (g :: past) (conflict? r) o' := by
  have grown : ∀ {g' : EGraph} {o' : Origin D}, Lawful I g' o' →
      Extends (fun _ => True) g o g' o' → Extends (fun _ => True) start o₀ g' o' ∧
        ∀ s ∈ g' :: g :: past, Lawful I s o' ∧ Extends (fun _ => True) s o' g' o' := by
    intro g' o' hlawful hext
    refine ⟨h.since.trans hext, fun s hs => ?_⟩
    rcases List.mem_cons.1 hs with rfl | hs
    · exact ⟨hlawful, .refl⟩
    · obtain ⟨hs₁, hs₂⟩ := h.seen s hs
      have hlater := hs₂.trans hext
      exact ⟨hs₁.rebase hlater, hlater.rebase⟩
  cases r with
  | ok a g' =>
    obtain ⟨o', hvalid, hP, hext⟩ := hr
    obtain ⟨hsince, hseen⟩ := grown hvalid.toLawful hext
    exact ⟨o', hsince, hseen, fun _ => ⟨hvalid, hP⟩, fun e he => (by cases he)⟩
  | error e g' =>
    obtain ⟨o', hlawful, hext, hclash⟩ := hr
    obtain ⟨hsince, hseen⟩ := grown hlawful hext
    refine ⟨o', hsince, hseen, fun he => (by cases he), fun e' he => ?_⟩
    cases he
    exact hclash

/-- **Along a history** one origin gives values to all graphs, whatever the steps were. -/
theorem History.upheld (hk : Keeps I rules P) (h₀ : Valid I start o₀) (hP : P start o₀)
    {graphs : List EGraph} (h : History rules start graphs stop) :
    ∃ g past o, graphs = g :: past ∧ Upheld I P start o₀ g past stop o := by
  induction h with
  | start =>
    refine ⟨start, [], o₀, rfl, .refl, ?_, fun _ => ⟨h₀, hP⟩, fun e he => (by cases he)⟩
    intro s hs
    obtain rfl := List.mem_singleton.1 hs
    exact ⟨h₀.toLawful, .refl⟩
  | apply h hr hseen hm ih =>
    obtain ⟨_, _, o, heq, hu⟩ := ih
    obtain ⟨rfl, rfl⟩ := List.cons.inj heq
    obtain ⟨hvalid, hPg⟩ := hu.running rfl
    obtain ⟨hlawful, hext⟩ := hu.seen _ hseen
    -- the match is one of an earlier graph, and has not ceased to be an instance
    have hinst := (Pattern.search_spec hlawful hm).later hext
    obtain ⟨o', hu'⟩ := hu.step (hk.apply hr hvalid hPg hinst)
    exact ⟨_, _, o', rfl, hu'⟩
  | repair h hp ih =>
    obtain ⟨_, _, o, heq, hu⟩ := ih
    obtain ⟨rfl, rfl⟩ := List.cons.inj heq
    obtain ⟨hvalid, hPg⟩ := hu.running rfl
    obtain ⟨o', hu'⟩ := hu.step (Ends.endsWith (repair_spec hvalid hp fun _ => False).1
      fun g' o' hvalid' hext => hk.later hvalid hPg hvalid' hext)
    exact ⟨_, _, o', rfl, hu'⟩
  | refold h hf ih =>
    obtain ⟨_, _, o, heq, hu⟩ := ih
    obtain ⟨rfl, rfl⟩ := List.cons.inj heq
    obtain ⟨hvalid, hPg⟩ := hu.running rfl
    obtain ⟨o', hu'⟩ := hu.step (Ends.endsWith (refold_spec hvalid hf fun _ => False).1
      fun g' o' hvalid' hext => hk.later hvalid hPg hvalid' hext)
    exact ⟨_, _, o', rfl, hu'⟩
  | @tidy g past h hp hf ih =>
    obtain ⟨_, _, o, heq, hu⟩ := ih
    obtain ⟨rfl, rfl⟩ := List.cons.inj heq
    obtain ⟨hvalid, hPg⟩ := hu.running rfl
    have hr := relisted_tidy hvalid.shape hvalid.founded hvalid.known hp
    have hvalid' := valid_tidy hvalid hp
    have hends : EndsWith I P g o (.ok () g.tidy : EStateM.Result Conflict EGraph Unit) :=
      ⟨o, hvalid', hk.later hvalid hPg hvalid' (extends_relisted hr), extends_relisted hr⟩
    obtain ⟨o', hu'⟩ := hu.step hends
    exact ⟨_, _, o', rfl, hu'⟩

/-- The latest graph of a history that goes on is in order. -/
theorem History.latest (hk : Keeps I rules P) (h₀ : Valid I start o₀) (hP : P start o₀)
    (h : History rules start (g :: past) none) : ∃ o, Valid I g o ∧ P g o := by
  obtain ⟨_, _, o, heq, hu⟩ := h.upheld hk h₀ hP
  obtain ⟨rfl, rfl⟩ := List.cons.inj heq
  exact ⟨o, hu.running rfl⟩

/-- All graphs of a history that goes on were in order, each of them under an origin of its own. -/
theorem History.each (hk : Keeps I rules P) (h₀ : Valid I start o₀) (hP : P start o₀)
    {graphs : List EGraph} (h : History rules start graphs none) :
    ∀ s ∈ graphs, ∃ o, Valid I s o ∧ P s o := by
  have key : ∀ {graphs stop}, History rules start graphs stop → stop = none →
      ∀ s ∈ graphs, ∃ o, Valid I s o ∧ P s o := by
    intro graphs stop h
    induction h with
    | start =>
      intro _ s hs
      obtain rfl := List.mem_singleton.1 hs
      exact ⟨o₀, h₀, hP⟩
    | apply h hr hseen hm ih =>
      intro hstop s hs
      rcases List.mem_cons.1 hs with rfl | hs
      · exact History.latest hk h₀ hP (hstop ▸ h.apply hr hseen hm)
      · exact ih rfl s hs
    | repair h hp ih =>
      intro hstop s hs
      rcases List.mem_cons.1 hs with rfl | hs
      · exact History.latest hk h₀ hP (hstop ▸ h.repair hp)
      · exact ih rfl s hs
    | refold h hf ih =>
      intro hstop s hs
      rcases List.mem_cons.1 hs with rfl | hs
      · exact History.latest hk h₀ hP (hstop ▸ h.refold hf)
      · exact ih rfl s hs
    | tidy h hp hf ih =>
      intro _ s hs
      rcases List.mem_cons.1 hs with rfl | hs
      · exact History.latest hk h₀ hP (h.tidy hp hf)
      · exact ih rfl s hs
  exact key h rfl

/-! ## Runs are histories -/

/-- A step that takes a history further, or leaves it as it is. -/
def Follows {α : Type} (rules : List Rule) (start : EGraph) (graphs : List EGraph)
    (r : EStateM.Result Conflict EGraph α) : Prop :=
  ∃ graphs', graphs <:+ graphs' ∧ graphs'.head? = some (left r) ∧
    History rules start graphs' (conflict? r)

variable {graphs : List EGraph}

/-- Nothing has happened. -/
theorem follows_pure {α : Type} (a : α) (h : History rules start graphs none)
    (hg : graphs.head? = some g) :
    Follows rules start graphs (.ok a g : EStateM.Result Conflict EGraph α) :=
  ⟨graphs, List.suffix_refl _, hg, h⟩

/-- A step, and then another that goes on where the first one succeeds. -/
theorem follows_bind {α β : Type} {s : Update α} {f : α → Update β}
    (hs : Follows rules start graphs (s g))
    (hf : ∀ a g' graphs', s g = .ok a g' → graphs <:+ graphs' → graphs'.head? = some g' →
      History rules start graphs' none → Follows rules start graphs' (f a g')) :
    Follows rules start graphs ((s >>= f) g) := by
  obtain ⟨graphs', hsuffix, hhead, hist⟩ := hs
  cases hrun : s g with
  | ok a g' =>
    rw [hrun] at hhead hist
    rw [bind_ok hrun]
    obtain ⟨graphs'', hsuffix', hhead', hist'⟩ := hf a g' graphs' hrun hsuffix hhead hist
    exact ⟨graphs'', hsuffix.trans hsuffix', hhead', hist'⟩
  | error e g' =>
    rw [hrun] at hhead hist
    rw [bind_error hrun]
    exact ⟨graphs', hsuffix, hhead, hist⟩

/-- A history that has a present graph lists it first. -/
theorem eq_cons_of_head? (hg : graphs.head? = some g) : graphs = g :: graphs.tail := by
  cases graphs with
  | nil => cases hg
  | cons g' past =>
    cases hg
    rfl

theorem follows_applyMatch {r : Rule} {m : Match} (h : History rules start graphs none)
    (hg : graphs.head? = some g) (hr : r ∈ rules) (hm : ∃ seen ∈ graphs, m ∈ r.search seen) :
    Follows rules start graphs (r.applyMatch m g) := by
  obtain ⟨seen, hseen, hm⟩ := hm
  rw [eq_cons_of_head? hg] at h hseen ⊢
  exact ⟨_, List.suffix_cons _ _, rfl, h.apply hr hseen hm⟩

theorem follows_applyFrom {r : Rule} (hr : r ∈ rules) (ms : List Match) (joined : Nat)
    {graphs : List EGraph} {g : EGraph} (h : History rules start graphs none)
    (hg : graphs.head? = some g) (hms : ∀ m ∈ ms, ∃ seen ∈ graphs, m ∈ r.search seen) :
    Follows rules start graphs (r.applyFrom ms joined g) := by
  induction ms generalizing graphs g joined with
  | nil => exact follows_pure joined h hg
  | cons m ms ih =>
    refine follows_bind (follows_applyMatch h hg hr (hms m List.mem_cons_self)) ?_
    intro changed g' graphs' _ hsuffix hhead hist
    refine ih _ hist hhead fun m' hm' => ?_
    obtain ⟨seen, hseen, hm'⟩ := hms m' (List.mem_cons_of_mem _ hm')
    exact ⟨seen, hsuffix.subset hseen, hm'⟩

/-- Matches that a rule has in one of the graphs. -/
def FoundIn (rules : List Rule) (graphs : List EGraph) (found : List (Rule × List Match)) : Prop :=
  ∀ f ∈ found, f.1 ∈ rules ∧ ∀ m ∈ f.2, ∃ seen ∈ graphs, m ∈ f.1.search seen

theorem follows_applyFound (nodeLimit : Nat) (found : List (Rule × List Match)) (applied : Tally)
    {graphs : List EGraph} {g : EGraph} (h : History rules start graphs none)
    (hg : graphs.head? = some g) (hfound : FoundIn rules graphs found) :
    Follows rules start graphs (applyFound nodeLimit found applied g) := by
  induction found generalizing graphs g applied with
  | nil => exact follows_pure applied h hg
  | cons f rest ih =>
    obtain ⟨r, ms⟩ := f
    obtain ⟨hr, hms⟩ := hfound _ List.mem_cons_self
    have hrest : FoundIn rules graphs rest := fun f hf => hfound f (List.mem_cons_of_mem _ hf)
    rw [applyFound]
    split
    · exact ih applied h hg hrest
    · refine follows_bind (follows_applyFrom hr ms 0 h hg hms) ?_
      intro joined g' graphs' _ hsuffix hhead hist
      have hrest' : FoundIn rules graphs' rest := fun f hf => ⟨(hrest f hf).1, fun m hm => by
        obtain ⟨seen, hseen, hm⟩ := (hrest f hf).2 m hm
        exact ⟨seen, hsuffix.subset hseen, hm⟩⟩
      show Follows rules start graphs' ((if g'.numNodes > nodeLimit then return _
        else applyFound nodeLimit rest _ : Update Tally) g')
      split
      · exact follows_pure _ hist hhead
      · exact ih _ hist hhead hrest'

theorem follows_drain (fuel : Nat) (stage : Stage) (unions : Nat) {graphs : List EGraph}
    {g : EGraph} (h : History rules start graphs none) (hg : graphs.head? = some g) :
    Follows rules start graphs (drain fuel stage unions g) := by
  induction fuel generalizing graphs g stage unions with
  | zero => exact follows_pure unions h hg
  | succ fuel ih =>
    rw [drain_succ]
    rcases takeUsage_cases stage g with ⟨htake, -⟩ | ⟨u, rest, hp, htake⟩ | ⟨u, rest, hp, htake⟩
    · rw [htake]
      exact follows_pure unions h hg
    · rw [htake]
      refine follows_bind ?_ fun joined g' graphs' _ _ hhead hist => ih _ _ hist hhead
      rw [eq_cons_of_head? hg] at h ⊢
      exact ⟨_, List.suffix_cons _ _, rfl, h.repair hp⟩
    · rw [htake]
      refine follows_bind ?_ fun _ g' graphs' _ _ hhead hist => ih _ _ hist hhead
      rw [eq_cons_of_head? hg] at h ⊢
      exact ⟨_, List.suffix_cons _ _, rfl, h.refold hp⟩

end EqSat
