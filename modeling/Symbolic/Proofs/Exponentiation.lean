import Mathlib.Algebra.Ring.Int.Defs
import Mathlib.Algebra.Ring.Parity
import Symbolic.Number.Arithmetic

/-! Integer powers: how they are computed, and how far the estimate of their size is from it. -/
namespace Symbolic

-- The powers are those of the core library, as in the definitions.
attribute [local instance (1100)] instPowNat

namespace TwosComplement

variable {a b : Int} {n : Nat}

theorem bitLength_le_iff : bitLength a ≤ n ↔ a.natAbs < 2 ^ n := by
  by_cases ha : a = 0
  · rw [bitLength, if_pos ha, ha]
    exact iff_of_true (Nat.zero_le n) (Nat.two_pow_pos n)
  · rw [bitLength, if_neg ha, Nat.succ_le_iff, Nat.log2_lt (by omega)]

theorem lt_bitLength_iff : n < bitLength a ↔ 2 ^ n ≤ a.natAbs := by
  rw [← Nat.not_le, bitLength_le_iff, Nat.not_lt]

theorem one_lt_bitLength_iff : 1 < bitLength a ↔ 1 < a.natAbs := lt_bitLength_iff

theorem bitLength_two_pow (n : Nat) : bitLength (2 ^ n) = n + 1 := by
  have habs : ((2 : Int) ^ n).natAbs = 2 ^ n := Int.natAbs_pow 2 n
  apply Nat.le_antisymm
  · rw [bitLength_le_iff, habs]
    exact Nat.pow_lt_pow_right (by decide) (Nat.lt_succ_self n)
  · rw [Nat.succ_le_iff, lt_bitLength_iff, habs]

theorem bitLength_pow_le (b : Int) (hn : 1 ≤ n) : bitLength (b ^ n) ≤ bitLength b * n := by
  rw [bitLength_le_iff, Int.natAbs_pow, Nat.pow_mul]
  exact Nat.pow_lt_pow_left (bitLength_le_iff.mp (Nat.le_refl _)) (by omega)

theorem lt_bitLength_pow (hb : b ≠ 0) (n : Nat) : (bitLength b - 1) * n < bitLength (b ^ n) := by
  have hpos : 0 < bitLength b := lt_bitLength_iff.mpr (Int.natAbs_pos.mpr hb)
  rw [lt_bitLength_iff, Int.natAbs_pow, Nat.pow_mul]
  exact Nat.pow_le_pow_left (lt_bitLength_iff.mp (by omega)) n

/-- The digits of the base taken as often as the exponent says are fewer than two times those of the
power, which has all but one of the digits of the base as often. -/
theorem bitLength_mul_lt (hb : 1 < b.natAbs) (n : Nat) :
    bitLength b * n < 2 * bitLength (b ^ n) := by
  have hbits : bitLength b ≤ 2 * (bitLength b - 1) := by
    have := one_lt_bitLength_iff.mpr hb
    omega
  have hpower : (bitLength b - 1) * n < bitLength (b ^ n) := lt_bitLength_pow (by omega) n
  calc bitLength b * n
      ≤ 2 * (bitLength b - 1) * n := Nat.mul_le_mul_right n hbits
    _ = 2 * ((bitLength b - 1) * n) := Nat.mul_assoc _ _ _
    _ < 2 * bitLength (b ^ n) := by omega

end TwosComplement

namespace Number

open TwosComplement

variable {base : Int} {exponent : Nat}

/-- The power of a negative integer has the sign that its exponent gives. -/
theorem neg_pow_eq (a : Int) (n : Nat) : (-a) ^ n = if n % 2 = 1 then -a ^ n else a ^ n := by
  split
  · next h => exact Odd.neg_pow (Nat.odd_iff.mpr h) a
  · next h => exact Even.neg_pow (Nat.even_iff.mpr (by omega)) a

theorem pow_of_natAbs_le_one {base : Int} (h : base.natAbs ≤ 1) {n : Nat} (hn : n ≠ 0) :
    base ^ n = if n % 2 = 1 then base else base * base := by
  obtain rfl | rfl | rfl : base = 0 ∨ base = 1 ∨ base = -1 := by omega
  · rw [Int.zero_pow hn]
    split <;> rfl
  · simp only [Int.one_pow]
    split <;> rfl
  · simp only [neg_pow_eq, Int.one_pow]
    rfl

/-- A power is computed by cases, each of which gives it. -/
theorem intPower_eq (base : Int) (exponent : Nat) : intPower base exponent = base ^ exponent := by
  simp only [intPower]
  split
  · next h => rw [h, Int.pow_zero]
  · next hne =>
    split
    · next hsmall => exact (pow_of_natAbs_le_one hsmall hne).symm
    · have habs : ((base.natAbs ^ exponent : Nat) : Int) = (base.natAbs : Int) ^ exponent :=
        Int.natCast_pow _ _
      rw [habs]
      by_cases hneg : base < 0
      · have hbase : base = -(base.natAbs : Int) := by omega
        have hpow := neg_pow_eq base.natAbs exponent
        rw [← hbase] at hpow
        simp [hneg, hpow]
      · have hbase : (base.natAbs : Int) = base := by omega
        simp [hneg, hbase]

/-- The powers that are computed: those that take no multiplication, those of zero and of the units,
and those whose estimated size is within the bound. -/
def WithinEstimate (base : Int) (exponent : Nat) : Prop :=
  exponent ≤ 1 ∨ base.natAbs ≤ 1 ∨ bitLength base * exponent ≤ maxResultBits

theorem not_withinEstimate_iff : ¬ WithinEstimate base exponent ↔
    1 < exponent ∧ 1 < base.natAbs ∧ maxResultBits < bitLength base * exponent := by
  simp only [WithinEstimate, not_or, Nat.not_le]

/-- A smaller exponent makes a smaller estimate. -/
theorem WithinEstimate.of_le (h : WithinEstimate base exponent) {smaller : Nat}
    (hle : smaller ≤ exponent) : WithinEstimate base smaller := by
  rcases h with h | h | h
  · exact Or.inl (Nat.le_trans hle h)
  · exact Or.inr (Or.inl h)
  · exact Or.inr (Or.inr (Nat.le_trans (Nat.mul_le_mul_left _ hle) h))

theorem WithinEstimate.bitLength_pow_le (h : WithinEstimate base exponent) (he : 1 < exponent) :
    bitLength (base ^ exponent) ≤ maxResultBits := by
  rcases h with h | h | h
  · omega
  · -- A power of zero or of a unit is one of them.
    have habs : (base ^ exponent).natAbs ≤ 1 := by
      rw [Int.natAbs_pow]
      exact Nat.pow_le_one_iff (by omega) |>.mpr h
    have hbit : bitLength (base ^ exponent) ≤ 1 := bitLength_le_iff.mpr (by omega)
    exact Nat.le_trans hbit (by decide)
  · exact Nat.le_trans (TwosComplement.bitLength_pow_le base (by omega)) h

/-- The estimate is less than two times the size, so that no power of half the bound is refused. -/
theorem withinEstimate_of_bitLength_pow_le (h : bitLength (base ^ exponent) ≤ maxResultBits / 2) :
    WithinEstimate base exponent := by
  by_contra hrefused
  obtain ⟨_, hbase, hestimate⟩ := not_withinEstimate_iff.mp hrefused
  have := bitLength_mul_lt hbase exponent
  omega

theorem boundedPower_of_withinEstimate (h : WithinEstimate base exponent) :
    boundedPower base exponent = .ok (.int (base ^ exponent)) := by
  rw [boundedPower, if_neg, intPower_eq]
  rintro ⟨he, hbits, hestimate⟩
  exact not_withinEstimate_iff.mpr ⟨he, one_lt_bitLength_iff.mp hbits, hestimate⟩ h

theorem boundedPower_of_not_withinEstimate (h : ¬ WithinEstimate base exponent) :
    boundedPower base exponent = .error .resultTooLarge := by
  obtain ⟨he, hbase, hestimate⟩ := not_withinEstimate_iff.mp h
  rw [boundedPower, if_pos ⟨he, one_lt_bitLength_iff.mpr hbase, hestimate⟩]

/-- The bound is far below the exponents that no machine word holds. -/
theorem lt_wordCount_of_withinEstimate (h : WithinEstimate base exponent)
    (hbase : 1 < base.natAbs) :
    exponent < wordCount := by
  have hbound : maxResultBits < wordCount := by decide
  rcases h with h | h | h
  · exact Nat.lt_of_le_of_lt h (by decide)
  · omega
  · have hbits := one_lt_bitLength_iff.mpr hbase
    have hle : 1 * exponent ≤ bitLength base * exponent := Nat.mul_le_mul_right _ (by omega)
    omega

theorem pow_int_of_lt (h : exponent < wordCount) :
    pow (.int base) (.int exponent) = boundedPower base exponent := if_pos h

theorem pow_int_of_not_lt (h : ¬ exponent < wordCount) :
    pow (.int base) (.int exponent) = .error .resultTooLarge := if_neg h

/-- An integer to a power that is no negative integer is exact where the estimate of its size is
within the bound, and refused where it is not. The estimate refuses every power beyond the bound
that takes a multiplication, and none within half of it. A count is an exponent like any other. Of
zero and the units only exponents that a machine word holds are considered. -/
theorem pow_within_estimate (base : Int) (exponent : Nat)
    (h : exponent < wordCount ∨ 1 < base.natAbs) :
    (WithinEstimate base exponent →
      pow (.int base) (.int exponent) = .ok (.int (base ^ exponent))) ∧
    (¬ WithinEstimate base exponent →
      pow (.int base) (.int exponent) = .error .resultTooLarge) ∧
    (bitLength (base ^ exponent) ≤ maxResultBits / 2 → WithinEstimate base exponent) ∧
    (1 < exponent → maxResultBits < bitLength (base ^ exponent) → ¬ WithinEstimate base exponent) ∧
    (exponent < wordCount →
      powCount (.int base) exponent = pow (.int base) (.int exponent)) := by
  refine ⟨fun hwithin => ?_, fun hrefused => ?_, withinEstimate_of_bitLength_pow_le,
    fun he hbeyond hwithin => ?_, fun hlt => (pow_int_of_lt hlt).symm⟩
  · have hlt : exponent < wordCount := h.elim id (lt_wordCount_of_withinEstimate hwithin)
    rw [pow_int_of_lt hlt, boundedPower_of_withinEstimate hwithin]
  · by_cases hlt : exponent < wordCount
    · rw [pow_int_of_lt hlt, boundedPower_of_not_withinEstimate hrefused]
    · exact pow_int_of_not_lt hlt
  · have := hwithin.bitLength_pow_le he
    omega

/-- The largest power of two within the estimate. -/
theorem pow_within_estimate_of_two :
    (8388608 < wordCount ∨ 1 < (2 : Int).natAbs) ∧ WithinEstimate 2 8388608 ∧
      pow (.int 2) (.int (8388608 : Nat)) = .ok (.int (2 ^ 8388608)) ∧
      ¬ WithinEstimate 2 8388609 ∧
      pow (.int 2) (.int (8388609 : Nat)) = .error .resultTooLarge := by
  have hwithin : WithinEstimate 2 8388608 := Or.inr (Or.inr (by decide))
  have hrefused : ¬ WithinEstimate 2 8388609 :=
    not_withinEstimate_iff.mpr ⟨by decide, by decide, by decide⟩
  have hword : 8388608 < wordCount := by decide
  exact ⟨Or.inl hword, hwithin, (pow_within_estimate 2 8388608 (Or.inl hword)).1 hwithin, hrefused,
    (pow_within_estimate 2 8388609 (Or.inr (by decide))).2.1 hrefused⟩

/-- The next power of two has half as many bits as the bound allows, and is refused. -/
theorem pow_refused_within_bound :
    bitLength (2 ^ 8388609) ≤ maxResultBits ∧
      pow (.int 2) (.int (8388609 : Nat)) = .error .resultTooLarge := by
  constructor
  · rw [bitLength_two_pow]
    decide
  · rfl

end Number
end Symbolic
