import EqSat.Proofs.Loose
import EqSat.Proofs.Looping

/-!
# Simplification with the built-in rules

One rule puts a plus before any term, Booleans too, but it puts the new node into the class of its
operand.  No other rule makes a plus.  So a plus before a Boolean always stands in the class of its
own operand, and is never extracted: what is extracted has the value of the seed, and not only
loosely.

    simplify_of_holds    rules that hold loosely keep values, and not only loosely
    simplify_value       simplification keeps the value of a well-typed term
-/

namespace EqSat

open EGraph

variable {z : ZeroDivision} {ρ : String → Constant}

/-- The value is a Boolean. -/
def IsBool (c : Constant) : Prop := ∃ b, c = .bool b

/-! ## Values are kept -/

/-- The nodes of a term with values put no plus before a Boolean. -/
theorem plusFree_of_value {t : Term} {value : Nat → Constant}
    (h : ∀ (i : Nat) (n : Node Nat), t.nodes[i]? = some n →
      ((n.map value).map some).value? z ρ = some (value i)) : PlusFree IsBool t value := by
  rintro i c hn ⟨b, hb⟩
  have hvalue : UnaryOp.fold? .plus (value c) = some (value i) := h i _ hn
  rw [hb] at hvalue
  cases hvalue

/-- Loose values are values where no plus stands before a Boolean. -/
theorem value_of_plusFree {t : Term} {value : Nat → Constant} (h : t.Valued (loose z ρ) value)
    (hfree : PlusFree IsBool t value) (i : Nat) (n : Node Nat) (hn : t.nodes[i]? = some n) :
    ((n.map value).map some).value? z ρ = some (value i) := by
  rw [← Node.loose_eq_value]
  · exact h i n hn
  · intro b hb
    cases n with
    | leaf l => cases hb
    | binary op c d => cases hb
    | unary op c =>
      obtain ⟨rfl, hvalue⟩ := Node.unary.inj hb
      exact hfree i c hn ⟨b, hvalue⟩

/-- Built-in rules that hold loosely simplify a well-typed term to one of the same value. -/
theorem simplify_of_holds {rules : List Rule} (hsub : ∀ r ∈ rules, r ∈ Rule.defaults)
    (hr : ∀ r ∈ rules, r.Holds (loose z ρ)) {t : Term} {u : Tree} (ht : t.tree? = some u)
    (hΓ : t.Typed fun x => (ρ x).kind) (limits : Limits) :
    ∃ best v c, t.simplify rules limits = .ok best ∧ best.tree? = some v ∧
      u.value? z ρ = some c ∧ v.value? z ρ = some c := by
  obtain ⟨hempty, rfl⟩ := Term.treeAt_of_tree? ht
  obtain ⟨value, hvalue, hstrict⟩ := hΓ.exists_values z
  have hvalued : t.Valued (loose z ρ) value := fun i n hn => Node.loose_of_value (hstrict i n hn)
  rcases simplify_looping (B := IsBool) (fun _ => rfl) rfl hsub hr hvalued hempty
    (plusFree_of_value hstrict) limits with
    ⟨e, -, hclash⟩ | ⟨best, value', hok, hempty', hvalued', hfree, hroot⟩
  · exact absurd hclash (not_clash_loose e)
  · refine ⟨best, _, value (t.size - 1), hok, Term.tree?_eq best hempty',
      hvalue _ (Term.size_sub_one_lt hempty), ?_⟩
    rw [Term.value_treeAt (value_of_plusFree hvalued' hfree) (Term.size_sub_one_lt hempty'), hroot]

/-- Some value of every kind. -/
def Kind.default : Kind → Constant
  | .int => .int 0
  | .bool => .bool false

theorem Kind.kind_default (k : Kind) : k.default.kind = k := by cases k <;> rfl

/-- **Simplification keeps values.**  Without the transitive rules, and without those that decide
what division by zero gives, every well-typed term is simplified, within any limits, to a term of
the same value: whatever the variables are, and whatever division by zero gives. -/
theorem simplify_value {Γ : String → Kind} {t : Term} {u : Tree} (ht : t.tree? = some u)
    (hΓ : t.Typed Γ) (limits : Limits) :
    ∃ best v, t.simplify (Rule.without (Rule.transitive ++ Rule.selfDivision) Rule.defaults) limits
        = .ok best ∧ best.tree? = some v ∧
      ∀ (z : ZeroDivision) (ρ : String → Constant), (∀ x, (ρ x).kind = Γ x) →
        ∃ c, u.value? z ρ = some c ∧ v.value? z ρ = some c := by
  have hholds : ∀ z ρ, ∀ r ∈ Rule.without (Rule.transitive ++ Rule.selfDivision) Rule.defaults,
      r.Holds (loose z ρ) := by
    intro z ρ r hr
    obtain ⟨hmem, hname⟩ := Rule.mem_without.1 hr
    rw [List.mem_append, not_or] at hname
    exact holds_default hmem hname.1 fun h => absurd h hname.2
  have hrun : ∀ (z : ZeroDivision) (ρ : String → Constant), (∀ x, (ρ x).kind = Γ x) → _ :=
    fun z ρ hρ => simplify_of_holds (z := z) (fun r hr => (Rule.mem_without.1 hr).1) (hholds z ρ) ht
      (by rwa [funext hρ]) limits
  -- the result is one and the same for all values, so those of any one valuation show it
  obtain ⟨best, v, -, hok, hv, -⟩ :=
    hrun ⟨id, id, id⟩ (fun x => (Γ x).default) fun x => (Γ x).kind_default
  refine ⟨best, v, hok, hv, fun z ρ hρ => ?_⟩
  obtain ⟨best', v', c, hok', hv', hu, hc⟩ := hrun z ρ hρ
  rw [hok] at hok'
  cases hok'
  rw [hv] at hv'
  cases hv'
  exact ⟨c, hu, hc⟩

/-- The quotient by zero cancels, whatever it is. -/
theorem simplify_value_quotient :
    let quotient := Tree.binary .div (.leaf (.var "x")) (.leaf (.const (.int 0)))
    let t := Tree.binary .eq (.binary .sub quotient quotient) (.leaf (.var "y"))
    (Term.ofTree t).tree? = some t ∧ (Term.ofTree t).Typed (fun _ => .int) ∧
      ∃ best v, (Term.ofTree t).simplify (Rule.without (Rule.transitive ++ Rule.selfDivision)
          Rule.defaults) .default = .ok best ∧ best.tree? = some v ∧
        ∀ (z : ZeroDivision) (ρ : String → Constant), (∀ x, (ρ x).kind = .int) →
          ∃ c, t.value? z ρ = some c ∧ v.value? z ρ = some c := by
  intro quotient t
  have ht : (Term.ofTree t).tree? = some t := Term.tree?_ofTree t
  have htyped : (Term.ofTree t).Typed fun _ => .int := Term.typed_ofTree (k := .bool) rfl
  exact ⟨ht, htyped, simplify_value ht htyped .default⟩

end EqSat
