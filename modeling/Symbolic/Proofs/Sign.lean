import Symbolic.Evaluation

/-! The sign of doubles: no sum and no multiple is negative unless an operand is. -/
namespace Symbolic.Binary64

attribute [local instance (1100)] instPowNat

variable {x y n : Binary64} {negative : Bool} {m num den : Nat}

theorem toNat_ofParts (h : m < 2 ^ (63 : Nat)) :
    (ofParts negative m).bits.toNat = if negative then 2 ^ (63 : Nat) + m else m := by
  have hlt : (if negative then 2 ^ (63 : Nat) + m else m) < 2 ^ (64 : Nat) := by split <;> omega
  exact Nat.mod_eq_of_lt hlt

theorem signBit_ofParts (h : m < 2 ^ (63 : Nat)) : (ofParts negative m).signBit = negative := by
  rw [signBit, toNat_ofParts h]
  cases negative with
  | true => exact decide_eq_true (Nat.le_add_right _ _)
  | false => exact decide_eq_false (by simp only [Bool.false_eq_true, if_false]; omega)

theorem magnitude_ofParts (h : m < 2 ^ (63 : Nat)) : (ofParts negative m).magnitude = m := by
  rw [magnitude, toNat_ofParts h]
  split <;> omega

theorem magnitude_lt (x : Binary64) : x.magnitude < 2 ^ (63 : Nat) := Nat.mod_lt _ (by omega)

theorem isNegative_eq_false_of_signBit (h : x.signBit = false) : x.isNegative = false := by
  rw [isNegative, h, Bool.false_and, Bool.false_and]

theorem isNegative_eq_false_of_isNaN (h : x.isNaN = true) : x.isNegative = false := by
  rw [isNegative, h, Bool.not_true, Bool.and_false]

theorem isNegative_eq_false_of_isZero (h : x.isZero = true) : x.isNegative = false := by
  rw [isNegative, h, Bool.not_true, Bool.and_false, Bool.false_and]

theorem isNegative_ofParts_zero : (ofParts negative 0).isNegative = false := by
  refine isNegative_eq_false_of_isZero (decide_eq_true ?_)
  exact magnitude_ofParts (by omega)

theorem isNaN_quiet (h : x.isNaN = true) : x.quiet.isNaN = true := by
  simp only [quiet]
  split
  · exact h
  · next hq =>
    have hlt := magnitude_lt x
    have hlarge := of_decide_eq_true h
    have hsum : x.magnitude + 2 ^ (51 : Nat) < 2 ^ (63 : Nat) := by omega
    refine decide_eq_true ?_
    rw [magnitude_ofParts hsum]
    omega

/-- A NaN that is passed on has no sign, whatever its sign bit. -/
theorem isNegative_of_nanOperand? (h : nanOperand? x y = some n) : n.isNegative = false := by
  simp only [nanOperand?] at h
  split at h
  · next hx =>
    cases h
    exact isNegative_eq_false_of_isNaN (isNaN_quiet hx)
  · split at h
    · next hy =>
      cases h
      exact isNegative_eq_false_of_isNaN (isNaN_quiet hy)
    · cases h

theorem isNegative_invalid : invalid.isNegative = false := by decide

theorem roundQuotient_zero (den : Nat) : roundQuotient 0 den = 0 := by
  simp only [roundQuotient]
  simp

theorem signBit_ofQuotient (negative : Bool) (num den : Nat) :
    (ofQuotient negative num den).signBit = negative := by
  refine signBit_ofParts (Nat.lt_of_le_of_lt (Nat.min_le_right _ _) ?_)
  simp only [infinityMagnitude]
  omega

/-- A rounded quotient is negative only as its exact value is. -/
theorem of_isNegative_ofQuotient (h : (ofQuotient negative num den).isNegative = true) :
    negative = true ∧ num ≠ 0 := by
  constructor
  · cases negative with
    | true => rfl
    | false =>
      rw [isNegative_eq_false_of_signBit (signBit_ofQuotient _ _ _)] at h
      cases h
  · rintro rfl
    have hzero : ofQuotient negative 0 den = ofParts negative 0 := by
      simp only [ofQuotient, roundQuotient_zero]
      simp
    rw [hzero, isNegative_ofParts_zero] at h
    cases h

theorem signBit_of_signedUnits_neg (h : x.signedUnits < 0) : x.signBit = true ∧ x.units ≠ 0 := by
  simp only [signedUnits] at h
  split at h
  · next hs => exact ⟨hs, by omega⟩
  · omega

theorem units_eq_zero_of_isZero (h : x.isZero = true) : x.units = 0 := by
  have hzero : x.magnitude = 0 := of_decide_eq_true h
  rw [units, hzero]
  rfl

theorem isNegative_of_signBit (hs : x.signBit = true) (hz : x.units ≠ 0) (hn : x.isNaN = false) :
    x.isNegative = true := by
  have hzero : x.isZero = false := by
    cases h : x.isZero with
    | false => rfl
    | true => exact (hz (units_eq_zero_of_isZero h)).elim
  rw [isNegative, hs, hzero, hn]
  rfl

theorem isNaN_of_nanOperand?_eq_none (h : nanOperand? x y = none) :
    x.isNaN = false ∧ y.isNaN = false := by
  simp only [nanOperand?] at h
  cases hx : x.isNaN <;> cases hy : y.isNaN <;> simp [hx, hy] at h ⊢

/-- A sum is negative only if an operand is. -/
theorem isNegative_or_of_add (h : (x.add y).isNegative = true) :
    x.isNegative = true ∨ y.isNegative = true := by
  simp only [add] at h
  cases hn : nanOperand? x y with
  | some n =>
    simp only [hn, isNegative_of_nanOperand? hn, Bool.false_eq_true] at h
  | none =>
    obtain ⟨hx, hy⟩ := isNaN_of_nanOperand?_eq_none hn
    simp only [hn] at h
    split at h
    · split at h
      · simp only [isNegative_invalid] at h
        cases h
      · exact Or.inl h
    · split at h
      · exact Or.inr h
      · split at h
        · simp only [isNegative_ofParts_zero] at h
          cases h
        · have hsum := of_decide_eq_true (of_isNegative_ofQuotient h).1
          by_cases hneg : x.signedUnits < 0
          · obtain ⟨hs, hz⟩ := signBit_of_signedUnits_neg hneg
            exact Or.inl (isNegative_of_signBit hs hz hx)
          · obtain ⟨hs, hz⟩ := signBit_of_signedUnits_neg (show y.signedUnits < 0 by omega)
            exact Or.inr (isNegative_of_signBit hs hz hy)

theorem isNegative_infinity (negative : Bool) : (infinity negative).isNegative = negative := by
  cases negative <;> decide

theorem signBit_ofNat (m : Nat) : (ofNat m).signBit = false := signBit_ofQuotient _ _ _

/-- A multiple is negative only if what is multiplied is. -/
theorem isNegative_of_mul_ofNat (h : (x.mul (ofNat m)).isNegative = true) :
    x.isNegative = true := by
  simp only [mul] at h
  cases hn : nanOperand? x (ofNat m) with
  | some n =>
    simp only [hn, isNegative_of_nanOperand? hn, Bool.false_eq_true] at h
  | none =>
    obtain ⟨hx, _⟩ := isNaN_of_nanOperand?_eq_none hn
    simp only [hn, signBit_ofNat, Bool.bne_false] at h
    split at h
    · split at h
      · simp only [isNegative_invalid] at h
        cases h
      · next hz =>
        simp only [isNegative_infinity] at h
        have hzero : x.isZero = false := by
          cases hxz : x.isZero <;> simp [hxz] at hz ⊢
        rw [isNegative, h, hzero, hx]
        rfl
    · obtain ⟨hs, hnum⟩ := of_isNegative_ofQuotient h
      refine isNegative_of_signBit hs ?_ hx
      rintro hz
      rw [hz, Nat.zero_mul] at hnum
      exact hnum rfl

theorem neg_of_isNegative_ofInt {v : Int} (h : (ofInt v).isNegative = true) : v < 0 :=
  of_decide_eq_true (of_isNegative_ofQuotient h).1

theorem isNegative_negate (h : x.isNegative = true) : x.negate.isNegative = false := by
  have hs : x.signBit = true := by
    cases hx : x.signBit with
    | true => rfl
    | false =>
      rw [isNegative_eq_false_of_signBit hx] at h
      cases h
  refine isNegative_eq_false_of_signBit ?_
  rw [negate, hs]
  exact signBit_ofParts (magnitude_lt x)

end Symbolic.Binary64
