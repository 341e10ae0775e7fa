import EqSat.Proofs.Evaluation
import EqSat.Proofs.Matching
import EqSat.Rule.Default

/-!
# The equations of the built-in rules

A plus before a Boolean has no value, yet a rule puts it before any term.  Loosely, plus changes
nothing at all.  Wherever the left side of a built-in rule has a loose value, the right side has
the same one.  Five rules are apart: the two transitive ones are no equations, and the three that
divide a term by itself decide what division by zero gives.

    holds_default        the rules as equations of loose values
-/

namespace EqSat

/-! ## Loose values -/

/-- The value of a node over values of its children; plus takes Booleans, too. -/
def Node.loose? (z : ZeroDivision) (ρ : String → Constant) : Node Constant → Option Constant
  | unary .plus a => some a
  | n => (n.map some).value? z ρ

variable {z : ZeroDivision} {ρ : String → Constant}

theorem Node.loose_eq_value {n : Node Constant} (h : ∀ b, n ≠ .unary .plus (.bool b)) :
    n.loose? z ρ = (n.map some).value? z ρ := by
  unfold loose?
  split
  · next a =>
    cases a with
    | bool b => exact absurd rfl (h b)
    | int k => rfl
  · rfl

/-- What has a value has it loosely. -/
theorem Node.loose_of_value {n : Node Constant} {d : Constant}
    (h : (n.map some).value? z ρ = some d) : n.loose? z ρ = some d := by
  rw [loose_eq_value, h]
  rintro b rfl
  cases h

theorem BinaryOp.value_of_fold {op : BinaryOp} {a b c d : Constant} (hc : op.fold? a b = some c)
    (hd : op.value? z a b = some d) : d = c := by
  rw [value?, hc, Option.some_or] at hd
  split at hd
  · exact (Option.some.inj hd).symm
  · cases hd

/-- Loose values agree with folding. -/
theorem Node.loose_of_fold {n : Node Constant} {c d : Constant} (hc : (n.map some).fold? = some c)
    (hd : n.loose? z ρ = some d) : d = c := by
  rw [loose_eq_value] at hd
  · cases n with
    | leaf l =>
      cases l with
      | const k => exact Option.some.inj (hd.symm.trans hc)
      | var x => cases hc
    | unary op a => exact Option.some.inj (hd.symm.trans hc)
    | binary op a b => exact BinaryOp.value_of_fold hc hd
  · rintro b rfl
    cases hc

/-- Loose values as a meaning of nodes. -/
def loose (z : ZeroDivision) (ρ : String → Constant) : Meaning Constant where
  analysis := .constantFolding
  const := id
  Holds n d := n.loose? z ρ = some d
  holds_const := fun _ => rfl
  unique := fun hd he => Option.some.inj (hd.symm.trans he)
  fold := fun _ n c d hc hd => Node.loose_of_fold hc (by rwa [n.map_id] at hd)

/-- Different constants do not clash. -/
theorem not_clash_loose (e : Conflict) : ¬ EGraph.Clash (loose z ρ) e := fun h => h.1 h.2

/-! ## Patterns -/

namespace Pattern

/-- The loose value of a pattern under values of its variables. -/
def loose? (z : ZeroDivision) (ρ σ : String → Constant) : Pattern → Option Constant
  | hole x => some (σ x)
  | leaf l => (Node.leaf l).loose? z ρ
  | unary op p => (loose? z ρ σ p).bind fun a => (Node.unary op a).loose? z ρ
  | binary op p q => (loose? z ρ σ p).bind fun a => (loose? z ρ σ q).bind fun b =>
    (Node.binary op a b).loose? z ρ

theorem means_loose_iff {p : Pattern} {σ : String → Constant} {d : Constant} :
    p.Means (loose z ρ) σ d ↔ p.loose? z ρ σ = some d := by
  have heq : p.loose? z ρ σ = p.through (Node.loose? z ρ) σ := by
    induction p with
    | hole x => rfl
    | leaf l => rfl
    | unary op p ih => rw [loose?, through, ih]
    | binary op p q ihp ihq => rw [loose?, through, ihp, ihq]
  rw [heq]
  exact means_iff_through fun _ _ => Iff.rfl

/-- Two values for the variables `x` and `y`. -/
def pair (a b : Constant) (v : String) : Constant := if v = "x" then a else b

/-- Whatever `x` and `y` are, `q` has the loose value that `p` has. -/
def Refines (z : ZeroDivision) (ρ : String → Constant) (p q : Pattern) : Prop :=
  ∀ a b d, p.loose? z ρ (pair a b) = some d → q.loose? z ρ (pair a b) = some d

end Pattern

/-- A rule in `x` and `y` is an equation if it is one for all pairs of values. -/
theorem Rule.holds_of_refines {r : Rule} (hv : ∀ v ∈ r.lhs.vars, v = "x" ∨ v = "y")
    (h : r.lhs.Refines z ρ r.rhs) : r.Holds (loose z ρ) := by
  intro σ d hd
  have hpair : ∀ v ∈ r.lhs.vars, σ v = Pattern.pair (σ "x") (σ "y") v := by
    intro v hmem
    obtain rfl | rfl := hv v hmem <;> rfl
  rw [Pattern.means_congr hpair, Pattern.means_loose_iff] at hd
  rw [Pattern.means_congr fun v hmem => hpair v (r.rhs_bound v hmem), Pattern.means_loose_iff]
  exact h _ _ d hd

/-! ## Rules that are apart -/

namespace Rule

/-- The rules that are no equations: what they say follows only where the left side is true. -/
def transitive : List String := ["eq-transitive", "implies-transitive"]

/-- The rules that decide what zero divided by itself gives. -/
def selfDivision : List String := ["div-reflexive", "int-div-reflexive", "mod-reflexive"]

/-- The rules of a list that have none of the names. -/
def without (names : List String) (rules : List Rule) : List Rule :=
  rules.filter fun r => r.name ∉ names

theorem mem_without {names : List String} {rules : List Rule} {r : Rule} :
    r ∈ without names rules ↔ r ∈ rules ∧ r.name ∉ names := by
  rw [without, List.mem_filter, decide_eq_true_iff]

end Rule

/-! ## The groups -/

/-- Division of zero by itself gives what the rules for equal operands say. -/
def ZeroDivision.Reflexive (z : ZeroDivision) : Prop := z.div 0 = 1 ∧ z.intDiv 0 = 1 ∧ z.mod 0 = 0

theorem ZeroDivision.Reflexive.value_div (h : z.Reflexive) (a : Int) :
    BinaryOp.value? z .div (.int a) (.int a) = some (.int 1) := by
  by_cases ha : a = 0
  · subst ha
    exact congrArg (some ∘ Constant.int) h.1
  · simp [BinaryOp.value?, BinaryOp.fold?, BinaryOp.foldInt?, truncDiv, ha, Int.tdiv_self]

theorem ZeroDivision.Reflexive.value_intDiv (h : z.Reflexive) (a : Int) :
    BinaryOp.value? z .intDiv (.int a) (.int a) = some (.int 1) := by
  by_cases ha : a = 0
  · subst ha
    exact congrArg (some ∘ Constant.int) h.2.1
  · simp [BinaryOp.value?, BinaryOp.fold?, BinaryOp.foldInt?, truncDiv, ha, Int.tdiv_self]

theorem ZeroDivision.Reflexive.value_mod (h : z.Reflexive) (a : Int) :
    BinaryOp.value? z .mod (.int a) (.int a) = some (.int 0) := by
  by_cases ha : a = 0
  · subst ha
    exact congrArg (some ∘ Constant.int) h.2.2
  · simp [BinaryOp.value?, BinaryOp.fold?, BinaryOp.foldInt?, truncMod, ha, Int.tmod_self]

open Rule.Default

theorem refines_arithmetic {r : Rule} (hr : r ∈ arithmetic)
    (hz : r.name ∈ Rule.selfDivision → z.Reflexive) : r.lhs.Refines z ρ r.rhs := by
  simp only [arithmetic, List.mem_cons, List.not_mem_nil, or_false] at hr
  obtain rfl | rfl | rfl | rfl | rfl | rfl | rfl | rfl | rfl | rfl | rfl | rfl := hr
  -- Booleans have no value, and on integers the rules are laws; division needs its choice
  case inr.inr.inr.inr.inr.inr.inr.inl =>
    rintro (_ | a) b d h
    · cases h
    · exact ((hz (by decide)).value_div a).symm.trans h
  case inr.inr.inr.inr.inr.inr.inr.inr.inl =>
    rintro (_ | a) b d h
    · cases h
    · exact ((hz (by decide)).value_intDiv a).symm.trans h
  case inr.inr.inr.inr.inr.inr.inr.inr.inr.inl =>
    rintro (_ | a) b d h
    · cases h
    · exact ((hz (by decide)).value_mod a).symm.trans h
  all_goals
    rintro (_ | a) (_ | b) d h <;> cases h <;> refine congrArg (some ∘ Constant.int) ?_
  all_goals first | omega | exact Int.mul_comm _ _

theorem refines_unary {r : Rule} (hr : r ∈ unary) : r.lhs.Refines z ρ r.rhs := by
  simp only [unary, List.mem_cons, List.not_mem_nil, or_false] at hr
  obtain rfl | rfl | rfl | rfl := hr
  · rintro (_ | a) b d h <;> cases h
    exact congrArg (some ∘ Constant.int) (by omega)
  · exact fun a b d h => h
  · rintro (_ | a) b d h <;> cases h
    exact congrArg (some ∘ Constant.int) (by omega)
  · exact fun a b d h => h

theorem refines_relational {r : Rule} (hr : r ∈ relational) (hn : r.name ≠ "eq-transitive") :
    r.lhs.Refines z ρ r.rhs := by
  simp only [relational, List.mem_cons, List.not_mem_nil, or_false] at hr
  obtain rfl | rfl | rfl | rfl | rfl | rfl | rfl | rfl | rfl | rfl | rfl | rfl := hr
  case inr.inr.inr.inr.inr.inr.inr.inr.inl => exact absurd rfl hn
  all_goals
    rintro ((_ | _) | a) ((_ | _) | b) d h <;> cases h <;> try rfl
  -- what is left compares integers that are not given
  all_goals refine congrArg (some ∘ Constant.bool) ?_
  all_goals first | exact BEq.comm | exact bne_comm | simp

theorem refines_boolean {r : Rule} (hr : r ∈ boolean) (hn : r.name ≠ "implies-transitive") :
    r.lhs.Refines z ρ r.rhs := by
  simp only [boolean, List.mem_cons, List.not_mem_nil, or_false] at hr
  obtain rfl | rfl | rfl | rfl | rfl | rfl | rfl | rfl | rfl | rfl | rfl | rfl | rfl | rfl | rfl |
    rfl | rfl | rfl | rfl | rfl := hr
  case inr.inr.inr.inr.inr.inr.inr.inr.inr.inr.inr.inr.inr.inr.inr.inr.inr.inr.inl =>
    exact absurd rfl hn
  all_goals
    rintro ((_ | _) | a) ((_ | _) | b) d h <;> cases h <;> rfl

/-- **The built-in rules are equations** of loose values, apart from the transitive ones. -/
theorem holds_default {r : Rule} (hr : r ∈ Rule.defaults)
    (hn : r.name ∉ Rule.transitive) (hz : r.name ∈ Rule.selfDivision → z.Reflexive) :
    r.Holds (loose z ρ) := by
  have hvars : ∀ r ∈ Rule.defaults, r.name ∉ Rule.transitive →
      ∀ v ∈ r.lhs.vars, v = "x" ∨ v = "y" := by decide
  refine Rule.holds_of_refines (hvars r hr hn) ?_
  simp only [Rule.defaults, List.mem_append] at hr
  obtain ((hr | hr) | hr) | hr := hr
  · exact refines_arithmetic hr hz
  · exact refines_unary hr
  · exact refines_relational hr fun h => hn (by simp [h, Rule.transitive])
  · exact refines_boolean hr fun h => hn (by simp [h, Rule.transitive])

end EqSat
