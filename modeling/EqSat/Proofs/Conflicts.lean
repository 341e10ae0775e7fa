import EqSat.Proofs.Defaults

/-!
# Conflicts under the built-in rules

The two transitive rules take a conjunction for the conclusion that follows from it.  Each of them
alone, with the other rules, leads well-typed terms to a conflict of `true` and `false`.  Without
both no well-typed term does, whatever the limits: the rules for equal operands of a division only
say that zero divided by itself is one, which is a choice like any other.

    conflictFree_iff     both transitive rules have to go
-/

namespace EqSat

namespace Rule

/-- No well-typed term leads to a conflict, whatever the limits. -/
def ConflictFree (rules : List Rule) : Prop :=
  ∀ (Γ : String → Kind) (t : Term) (u : Tree), t.tree? = some u → t.Typed Γ →
    ∀ limits e, t.simplify rules limits ≠ .error (.conflict e)

/-- The rules lead the term to a conflict, within the usual limits. -/
def conflicts (rules : List Rule) (u : Tree) : Bool :=
  match (Term.ofTree u).simplify rules .default with
  | .error (.conflict _) => true
  | _ => false

theorem not_conflictFree {rules : List Rule} {Γ : String → Kind} {u : Tree} {k : Kind}
    (hu : u.kind? Γ = some k) (h : conflicts rules u = true) : ¬ ConflictFree rules := by
  intro hfree
  unfold conflicts at h
  split at h
  · next e heq => exact hfree Γ _ u (Term.tree?_ofTree u) (Term.typed_ofTree hu) .default e heq
  · cases h

/-- Without the transitive rules there is a meaning in which all rules hold: zero divided by itself
is one, with no remainder. -/
theorem conflictFree_of_not_transitive {rules : List Rule}
    (h : ∀ r ∈ rules, r ∈ defaults ∧ r.name ∉ transitive) : ConflictFree rules := by
  intro Γ t u ht hΓ limits e
  obtain ⟨best, v, c, hok, -⟩ := simplify_of_holds (z := ⟨fun _ => 1, fun _ => 1, fun _ => 0⟩)
    (ρ := fun x => (Γ x).default) (fun r hr => (h r hr).1)
    (fun r hr => holds_default (h r hr).1 (h r hr).2 fun _ => ⟨rfl, rfl, rfl⟩) ht
    (by simpa only [Kind.kind_default] using hΓ) limits
  rw [hok]
  exact fun heq => by cases heq

/-! ## Terms in conflict -/

/-- One and two cannot both be `x`, but then `1 = 2` is said to be that very conjunction. -/
def equalities : Tree :=
  let one : Tree := .binary .eq (.leaf (.const (.int 1))) (.leaf (.var "x"))
  let two : Tree := .binary .eq (.leaf (.var "x")) (.leaf (.const (.int 2)))
  .binary .and (.binary .and one two) (.binary .and (.binary .and one one) (.binary .and two two))

/-- Both constants imply `y` and follow from it. -/
def implications : Tree :=
  let y : Tree := .leaf (.var "y")
  let both (b : Bool) : Tree := .binary .and (.binary .implies (.leaf (.const (.bool b))) y)
    (.binary .implies y (.leaf (.const (.bool b))))
  .binary .and y (.binary .and (both true) (both false))

theorem kind_equalities : equalities.kind? (fun _ => .int) = some .bool := by decide

theorem kind_implications : implications.kind? (fun _ => .bool) = some .bool := by decide

theorem conflicts_defaults : conflicts defaults equalities = true := by decide +kernel

theorem conflicts_equalities :
    conflicts (without ["implies-transitive"] defaults) equalities = true := by decide +kernel

theorem conflicts_implications :
    conflicts (without ["eq-transitive"] defaults) implications = true := by decide +kernel

/-- The built-in rules lead a well-typed term to a conflict. -/
theorem not_conflictFree_defaults : ¬ ConflictFree defaults :=
  not_conflictFree kind_equalities conflicts_defaults

/-! ## The rules that have to go -/

theorem without_congr {names names' : List String} (h : ∀ n, n ∈ names ↔ n ∈ names')
    (rules : List Rule) : without names rules = without names' rules :=
  List.filter_congr fun r _ => by simp only [h]

/-- **Conflicts.**  Of the two transitive rules both have to go, and then no well-typed term
leads to a conflict. -/
theorem conflictFree_iff {names : List String} (h : names ⊆ transitive) :
    ConflictFree (without names defaults) ↔ transitive ⊆ names := by
  constructor
  · intro hfree
    have hcases : ∀ n ∈ names, n = "eq-transitive" ∨ n = "implies-transitive" := fun n hn => by
      simpa [transitive] using h hn
    by_cases he : "eq-transitive" ∈ names <;> by_cases hi : "implies-transitive" ∈ names
    · simp [transitive, he, hi]
    · have hnames : ∀ n, n ∈ names ↔ n ∈ ["eq-transitive"] := fun n => by
        rw [List.mem_singleton]
        refine ⟨fun hn => (hcases n hn).resolve_right ?_, fun hn => hn ▸ he⟩
        rintro rfl
        exact hi hn
      rw [without_congr hnames] at hfree
      exact absurd hfree (not_conflictFree kind_implications conflicts_implications)
    · have hnames : ∀ n, n ∈ names ↔ n ∈ ["implies-transitive"] := fun n => by
        rw [List.mem_singleton]
        refine ⟨fun hn => (hcases n hn).resolve_left ?_, fun hn => hn ▸ hi⟩
        rintro rfl
        exact he hn
      rw [without_congr hnames] at hfree
      exact absurd hfree (not_conflictFree kind_equalities conflicts_equalities)
    · have hnone : without names defaults = defaults := by
        refine List.filter_eq_self.2 fun r _ => decide_eq_true fun hn => ?_
        rcases hcases _ hn with heq | heq
        · exact he (heq ▸ hn)
        · exact hi (heq ▸ hn)
      rw [hnone] at hfree
      exact absurd hfree (not_conflictFree kind_equalities conflicts_defaults)
  · intro hsub
    refine conflictFree_of_not_transitive fun r hr => ?_
    obtain ⟨hmem, hname⟩ := mem_without.1 hr
    exact ⟨hmem, fun hn => hname (hsub hn)⟩

/-- Leaving out both is enough. -/
theorem conflictFree_without_transitive :
    transitive ⊆ transitive ∧ ConflictFree (without transitive defaults) :=
  ⟨List.Subset.refl _, (conflictFree_iff (List.Subset.refl _)).2 (List.Subset.refl _)⟩

end Rule

end EqSat
