import Mathlib.Data.Rat.Floor
import Symbolic.Expr.Value

/-! Integer division rounds down: the truncated quotient and remainder are corrected to the quotient
that rounds down and the remainder on the side of the divisor, and a shift is such a quotient
too. -/
namespace Symbolic

-- The powers are those of the core library, as in the definitions.
attribute [local instance (1100)] instPowNat

/-- A quotient and a remainder of `a` by `b`, the remainder on the side of the divisor. -/
structure FloorDivision (a b q r : Int) : Prop where
  sum_eq : a = q * b + r
  small : r.natAbs < b.natAbs
  side : r = 0 ∨ (r < 0 ↔ b < 0)

/-- The floor of the rational quotient is what the core library calls by that name. -/
theorem floor_ratio (a b : Int) : ⌊(a : ℚ) / b⌋ = a.fdiv b := by
  have ofNonneg (a : Int) {b : Int} (hb : 0 ≤ b) : ⌊(a : ℚ) / b⌋ = a.fdiv b := by
    obtain ⟨n, rfl⟩ := Int.eq_ofNat_of_zero_le hb
    rw [Int.fdiv_eq_ediv_of_nonneg a hb]
    exact_mod_cast Rat.floor_intCast_div_natCast a n
  rcases Int.le_total 0 b with hb | hb
  · exact ofNonneg a hb
  · have hneg := ofNonneg (-a) (Int.neg_nonneg_of_nonpos hb)
    rwa [Int.cast_neg, Int.cast_neg, neg_div_neg_eq, Int.neg_fdiv_neg] at hneg

namespace FloorDivision

variable {a b q r : Int}

/-- There are no other quotient and remainder of this kind. -/
theorem eq_fdiv_and_eq_fmod (h : FloorDivision a b q r) : q = a.fdiv b ∧ r = a.fmod b := by
  obtain ⟨hsum, hsmall, hside⟩ := h
  have hsum' : r + b * q = a := by
    rw [Int.mul_comm, Int.add_comm]
    exact hsum.symm
  rcases Int.lt_or_gt_of_ne (show b ≠ 0 by omega) with hneg | hpos
  · obtain ⟨hq, hr⟩ := (Int.fdiv_fmod_unique' hneg).mpr ⟨hsum', by omega, by omega⟩
    exact ⟨hq.symm, hr.symm⟩
  · obtain ⟨hq, hr⟩ := (Int.fdiv_fmod_unique hpos).mpr ⟨hsum', by omega, by omega⟩
    exact ⟨hq.symm, hr.symm⟩

theorem eq_floor (h : FloorDivision a b q r) : q = ⌊(a : ℚ) / b⌋ :=
  h.eq_fdiv_and_eq_fmod.1.trans (floor_ratio a b).symm

end FloorDivision

namespace Number

/-- The correction of the truncated quotient and remainder is right whatever the signs are. -/
theorem floorDivision_floorDivRem {a b : Int} (hb : b ≠ 0) :
    FloorDivision a b (floorDivRem a b).1 (floorDivRem a b).2 := by
  have hsum : a.tdiv b * b + a.tmod b = a := Int.tdiv_mul_add_tmod a b
  have hsmall : (a.tmod b).natAbs < b.natAbs := by
    rw [Int.natAbs_tmod]
    exact Nat.mod_lt _ (by omega)
  rw [floorDivRem]
  split
  · next hmoved =>
    -- The remainder and the divisor are on different sides, so that their sum is between them.
    obtain ⟨hne, hsides⟩ := hmoved
    exact {
      sum_eq := by rw [Int.sub_mul]; omega
      small := by omega
      side := by omega }
  · next hkept =>
    exact {
      sum_eq := hsum.symm
      small := hsmall
      side := by omega }

theorem isZero_int {b : Int} (hb : ¬ b = 0) : ¬ (int b).isZero = true := by simpa [isZero] using hb

theorem floorDiv_int {a b : Int} (hb : ¬ b = 0) :
    floorDiv (.int a) (.int b) = .ok (.int (a.fdiv b)) := by
  rw [floorDiv, if_neg (isZero_int hb), ← (floorDivision_floorDivRem hb).eq_fdiv_and_eq_fmod.1]

theorem modulo_int {a b : Int} (hb : ¬ b = 0) :
    modulo (.int a) (.int b) = .ok (.int (a.fmod b)) := by
  rw [modulo, if_neg (isZero_int hb), ← (floorDivision_floorDivRem hb).eq_fdiv_and_eq_fmod.2]

theorem shiftRight_eq_shifted {a : Int} {amount : Nat} (h : amount < wordCount) :
    a >>> amount = shifted a amount := by
  have hpos : (0 : Int) ≤ 2 ^ amount := by exact_mod_cast Nat.zero_le _
  rw [shifted, if_pos h, Int.shiftRight_eq_div_pow, Int.fdiv_eq_ediv_of_nonneg a hpos]
  norm_cast

/-- Up to a size that no memory holds, every amount gives the quotient rounded down. -/
theorem shifted_eq_fdiv {a : Int} (h : a.natAbs < 2 ^ wordCount) (amount : Nat) :
    shifted a amount = a.fdiv (2 ^ amount) := by
  by_cases hamount : amount < wordCount
  · rw [shifted, if_pos hamount]
  · have hpow : (2 : Nat) ^ wordCount ≤ 2 ^ amount :=
      Nat.pow_le_pow_right (by omega) (Nat.not_lt.mp hamount)
    have hcast : ((2 ^ amount : Nat) : Int) = 2 ^ amount := Int.natCast_pow 2 amount
    have hnonneg : (0 : Int) ≤ 2 ^ amount := by omega
    rw [shifted, if_neg hamount, Int.fdiv_eq_ediv_of_nonneg a hnonneg]
    split
    · next hneg => exact (Int.ediv_eq_neg_one_of_neg_of_le hneg (by omega)).symm
    · next hpos => exact (Int.ediv_eq_zero_of_lt (by omega) (by omega)).symm

theorem shr_int {a b : Int} (hb : ¬ b < 0) :
    shr (.int a) (.int b) = .ok (.int (shifted a b.toNat)) := by
  simp only [shr, if_neg hb]
  split
  · next hlt => rw [shiftRight_eq_shifted (by omega)]
  · next hge =>
    have hbeyond : ¬ b.toNat < wordCount := by omega
    rw [shifted, if_neg hbeyond]

/-- Every divisor but zero divides an integer into a quotient, which is the floor of the ratio, and
a remainder on the side of the divisor. A shift by any amount is the floor of the ratio to the power
of two, for every integer that a memory of fewer than `2 ^ 64` bits can hold. -/
theorem floorDiv_modulo_shr (a : Int) :
    (∀ b, b ≠ 0 → ∃ q r, floorDiv (.int a) (.int b) = .ok (.int q) ∧
      modulo (.int a) (.int b) = .ok (.int r) ∧ FloorDivision a b q r ∧ q = ⌊(a : ℚ) / b⌋) ∧
    (a.natAbs < 2 ^ wordCount → ∀ n : Nat,
      shr (.int a) (.int n) = .ok (.int ⌊(a : ℚ) / (2 ^ n : Nat)⌋)) := by
  constructor
  · intro b hb
    have hdivision := floorDivision_floorDivRem (a := a) hb
    refine ⟨_, _, ?_, ?_, hdivision, hdivision.eq_floor⟩
    · rw [floorDiv, if_neg (isZero_int hb)]
    · rw [modulo, if_neg (isZero_int hb)]
  · intro ha n
    have hfloor : ⌊(a : ℚ) / (2 ^ n : Nat)⌋ = a.fdiv (2 ^ n : Nat) := by
      rw [← floor_ratio, Int.cast_natCast]
    have hcast : ((2 ^ n : Nat) : Int) = 2 ^ n := Int.natCast_pow 2 n
    rw [shr_int (by omega), Int.toNat_natCast, shifted_eq_fdiv ha, hfloor, hcast]

/-- A quotient and a remainder of a negative integer, and what is left of it after a shift by more
places than a machine word can count. -/
theorem floorDiv_modulo_shr_of_negative :
    (4 : Int) ≠ 0 ∧ (-9 : Int).natAbs < 2 ^ wordCount ∧
      floorDiv (.int (-9)) (.int 4) = .ok (.int (-3)) ∧ modulo (.int (-9)) (.int 4) = .ok (.int 3) ∧
      FloorDivision (-9) 4 (-3) 3 ∧ (-3 : Int) = ⌊((-9 : Int) : ℚ) / (4 : Int)⌋ ∧
      shr (.int (-9)) (.int wordCount) = .ok (.int (-1)) ∧
      ⌊((-9 : Int) : ℚ) / (2 ^ wordCount : Nat)⌋ = -1 := by
  have hsmall : (-9 : Int).natAbs < 2 ^ wordCount := by
    have hpow : (2 : Nat) ^ 4 ≤ 2 ^ wordCount := Nat.pow_le_pow_right (by decide) (by decide)
    exact Nat.lt_of_lt_of_le (by decide) hpow
  obtain ⟨hdivision, hshift⟩ := floorDiv_modulo_shr (-9)
  obtain ⟨q, r, hq, hr, hboth, hfloor⟩ := hdivision 4 (by decide)
  have hquotient : floorDiv (.int (-9)) (.int 4) = .ok (.int (-3)) := by decide
  have hremainder : modulo (.int (-9)) (.int 4) = .ok (.int 3) := by decide
  obtain rfl : q = -3 := int.inj (Except.ok.inj (hq.symm.trans hquotient))
  obtain rfl : r = 3 := int.inj (Except.ok.inj (hr.symm.trans hremainder))
  have hshr : shr (.int (-9)) (.int wordCount) = .ok (.int (-1)) := by decide
  exact ⟨by decide, hsmall, hq, hr, hboth, hfloor, hshr,
    int.inj (Except.ok.inj ((hshift hsmall wordCount).symm.trans hshr))⟩

end Number
end Symbolic
