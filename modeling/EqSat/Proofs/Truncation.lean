import EqSat.Folding
import Mathlib.Algebra.Order.Group.Unbundled.Int

/-!
# Division toward zero

Quotient and remainder are told by three conditions: they give back the dividend, the remainder
is smaller than the divisor, and it is zero or has the sign of the dividend.  No divisor but zero
is left out, and no second pair meets them.

The quotient can be found by floor division of the magnitudes, where all ways of rounding agree,
and the sign put in afterwards.

    Truncates.iff_tdiv           one pair meets the conditions
    tdiv_eq_ofMagnitudes         the sign of the quotient
    truncDiv_truncMod_unique     what the folded quotient and remainder are
-/

namespace EqSat

variable {a b q r : Int}

/-- `q` and `r` are quotient and remainder of `a` by `b`, rounded toward zero. -/
structure Truncates (a b q r : Int) : Prop where
  split : a = b * q + r
  small : |r| < |b|
  sign : r = 0 ∨ r.sign = a.sign

/-- The quotient of the magnitudes, negated if one operand is negative and the other is not.  Zero
goes with the positive ones. -/
def quotientOfMagnitudes (a b : Int) : Int :=
  let quotient := Int.fdiv |a| |b|
  if a < 0 ↔ b < 0 then quotient else -quotient

/-- Division through the magnitudes, unknown for a zero divisor. -/
def divByMagnitudes (a b : Int) : Option Int :=
  if b = 0 then none else some (quotientOfMagnitudes a b)

/-- What the quotient leaves of the dividend. -/
def modByMagnitudes (a b : Int) : Option Int := (divByMagnitudes a b).map fun q => a - b * q

/-! ## The conditions -/

namespace Truncates

theorem divisor_ne_zero (h : Truncates a b q r) : b ≠ 0 := by
  rintro rfl
  exact absurd h.small (by simp)

theorem remainder_nonneg (h : Truncates a b q r) (ha : 0 ≤ a) : 0 ≤ r := by
  rcases h.sign with hr | hr
  · exact hr.ge
  · rw [← Int.sign_nonneg_iff, hr, Int.sign_nonneg_iff]
    exact ha

theorem remainder_nonpos (h : Truncates a b q r) (ha : a ≤ 0) : r ≤ 0 := by
  rcases h.sign with hr | hr
  · exact hr.le
  · rw [← Int.sign_nonpos_iff, hr, Int.sign_nonpos_iff]
    exact ha

theorem of_tdiv (a : Int) (hb : b ≠ 0) : Truncates a b (a.tdiv b) (a.tmod b) where
  split := (Int.mul_tdiv_add_tmod a b).symm
  small := by
    rw [Int.abs_eq_natAbs, Int.abs_eq_natAbs, Int.natAbs_tmod, Int.ofNat_lt]
    exact Nat.mod_lt _ (Int.natAbs_pos.2 hb)
  sign := by
    rw [Int.sign_tmod]
    by_cases hdvd : b ∣ a
    · exact .inl (Int.tmod_eq_zero_of_dvd hdvd)
    · exact .inr (if_neg hdvd)

/-- The conditions leave one pair.  Dividends on either side of zero are told apart, as the bound
on the remainder is a different one for each. -/
theorem iff_tdiv (hb : b ≠ 0) : Truncates a b q r ↔ a.tdiv b = q ∧ a.tmod b = r := by
  constructor
  · intro h
    have hsplit : r + b * q = a := by rw [h.split, Int.add_comm]
    obtain ⟨hlow, hhigh⟩ := abs_lt.1 h.small
    rw [Int.abs_eq_natAbs] at hlow hhigh
    rcases Int.le_total 0 a with ha | ha
    · exact (Int.tdiv_tmod_unique ha hb).2 ⟨hsplit, h.remainder_nonneg ha, hhigh⟩
    · exact (Int.tdiv_tmod_unique' ha hb).2 ⟨hsplit, hlow, h.remainder_nonpos ha⟩
  · rintro ⟨rfl, rfl⟩
    exact of_tdiv a hb

end Truncates

/-! ## The magnitudes -/

/-- Each operand below zero turns the sign of the quotient over once. -/
theorem tdiv_eq_ofMagnitudes (a b : Int) : a.tdiv b = quotientOfMagnitudes a b := by
  rw [quotientOfMagnitudes, Int.fdiv_eq_tdiv_of_nonneg (abs_nonneg a) (abs_nonneg b)]
  rcases lt_or_ge a 0 with ha | ha
  · rw [abs_of_neg ha, Int.neg_tdiv]
    rcases lt_or_ge b 0 with hb | hb
    · rw [if_pos (iff_of_true ha hb), abs_of_neg hb, Int.tdiv_neg, Int.neg_neg]
    · rw [if_neg fun h => hb.not_gt (h.1 ha), abs_of_nonneg hb, Int.neg_neg]
  · rw [abs_of_nonneg ha]
    rcases lt_or_ge b 0 with hb | hb
    · rw [if_neg fun h => ha.not_gt (h.2 hb), abs_of_neg hb, Int.tdiv_neg, Int.neg_neg]
    · rw [if_pos (iff_of_false ha.not_gt hb.not_gt), abs_of_nonneg hb]

theorem truncDiv_eq_divByMagnitudes (a b : Int) : truncDiv a b = divByMagnitudes a b := by
  rw [truncDiv, divByMagnitudes, tdiv_eq_ofMagnitudes]

theorem truncMod_eq_modByMagnitudes (a b : Int) : truncMod a b = modByMagnitudes a b := by
  rw [truncMod, modByMagnitudes, ← truncDiv_eq_divByMagnitudes, truncDiv, Int.tmod_def]
  split
  · rfl
  · rfl

/-! ## Quotient and remainder -/

/-- **The folded quotient and remainder** are unknown for a zero divisor only.  Any other divisor
has one pair that meets the conditions, which is theirs and that of the magnitudes. -/
theorem truncDiv_truncMod_unique (a b : Int) :
    (truncDiv a b = none ↔ b = 0) ∧ (truncMod a b = none ↔ b = 0) ∧
      (∀ q r, Truncates a b q r ↔ truncDiv a b = some q ∧ truncMod a b = some r) ∧
      truncDiv a b = divByMagnitudes a b ∧ truncMod a b = modByMagnitudes a b := by
  refine ⟨truncDiv_eq_none, truncMod_eq_none, fun q r => ?_, truncDiv_eq_divByMagnitudes a b,
    truncMod_eq_modByMagnitudes a b⟩
  by_cases hb : b = 0
  · have hnone : truncDiv a b = none := truncDiv_eq_none.2 hb
    constructor
    · exact fun h => absurd hb h.divisor_ne_zero
    · rintro ⟨hq, -⟩
      cases hnone.symm.trans hq
  · rw [Truncates.iff_tdiv hb, truncDiv, truncMod, if_neg hb, if_neg hb, Option.some.injEq,
      Option.some.injEq]

/-- The remainder follows the dividend, and the quotient both signs. -/
example : [(7, 2), (-7, 2), (7, -2), (-7, -2)].map (fun p => (truncDiv p.1 p.2, truncMod p.1 p.2)) =
    [(some 3, some 1), (some (-3), some (-1)), (some (-3), some 1), (some 3, some (-1))] := by
  decide

end EqSat
