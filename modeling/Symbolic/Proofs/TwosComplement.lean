import Mathlib.Data.Int.Bitwise
import Symbolic.TwosComplement

/-! The laws of the bitwise operations, read off the bits: an integer is the string of its bits. -/
namespace Symbolic.TwosComplement

variable (a b c : Int)

/-- Far enough to the left all bits of a natural number are zeros. -/
theorem testBit_ofNat_add (m n : Nat) : (Int.ofNat m).testBit (m + n) = false := by
  have hlt : m < 2 ^ (m + n) :=
    Nat.lt_of_lt_of_le Nat.lt_two_pow_self (Nat.pow_le_pow_right (by omega) (Nat.le_add_right m n))
  exact Nat.testBit_lt_two_pow hlt

theorem testBit_negSucc_add (m n : Nat) : (Int.negSucc m).testBit (m + n) = true := by
  have hofNat : m.testBit (m + n) = false := testBit_ofNat_add m n
  simp [Int.testBit, hofNat]

variable {a b c} in
theorem eq_of_testBit_eq (h : ∀ i, a.testBit i = b.testBit i) : a = b := by
  cases a with
  | ofNat m =>
    cases b with
    | ofNat n => exact congrArg Int.ofNat (Nat.eq_of_testBit_eq h)
    | negSucc n =>
      have hm := testBit_ofNat_add m n
      have hn := testBit_negSucc_add n m
      rw [Nat.add_comm n m, ← h, hm] at hn
      cases hn
  | negSucc m =>
    cases b with
    | ofNat n =>
      have hm := testBit_negSucc_add m n
      have hn := testBit_ofNat_add n m
      rw [Nat.add_comm n m, ← h, hm] at hn
      cases hn
    | negSucc n =>
      refine congrArg Int.negSucc (Nat.eq_of_testBit_eq fun i => ?_)
      have := h i
      simpa [Int.testBit] using this

theorem testBit_without (m n i : Nat) :
    (without m n).testBit i = (m.testBit i && !n.testBit i) := by
  rw [without, Nat.testBit_xor, Nat.testBit_and]
  cases m.testBit i <;> cases n.testBit i <;> rfl

@[simp] theorem testBit_and (i : Nat) : (and a b).testBit i = (a.testBit i && b.testBit i) := by
  cases a <;> cases b <;> simp [and, Int.testBit, testBit_without, Bool.and_comm]

@[simp] theorem testBit_or (i : Nat) : (or a b).testBit i = (a.testBit i || b.testBit i) := by
  cases a <;> cases b <;> simp [or, Int.testBit, testBit_without, Bool.or_comm]

@[simp] theorem testBit_xor (i : Nat) : (xor a b).testBit i = (a.testBit i ^^ b.testBit i) := by
  cases a <;> cases b <;> simp [xor, Int.testBit]

@[simp] theorem testBit_zero (i : Nat) : (0 : Int).testBit i = false := Nat.zero_testBit i

@[simp] theorem testBit_neg_one (i : Nat) : (-1 : Int).testBit i = true := by
  have hzero : Nat.testBit 0 i = false := Nat.zero_testBit i
  change (!Nat.testBit 0 i) = true
  rw [hzero]
  rfl

theorem and_comm : and a b = and b a := by
  apply eq_of_testBit_eq
  intro i
  simp [Bool.and_comm]

theorem and_assoc : and (and a b) c = and a (and b c) := by
  apply eq_of_testBit_eq
  intro i
  simp [Bool.and_assoc]

theorem and_self : and a a = a := by
  apply eq_of_testBit_eq
  intro i
  simp

theorem and_zero : and a 0 = 0 := by
  apply eq_of_testBit_eq
  intro i
  simp

theorem and_neg_one : and a (-1) = a := by
  apply eq_of_testBit_eq
  intro i
  simp

theorem or_comm : or a b = or b a := by
  apply eq_of_testBit_eq
  intro i
  simp [Bool.or_comm]

theorem or_assoc : or (or a b) c = or a (or b c) := by
  apply eq_of_testBit_eq
  intro i
  simp [Bool.or_assoc]

theorem or_self : or a a = a := by
  apply eq_of_testBit_eq
  intro i
  simp

theorem or_zero : or a 0 = a := by
  apply eq_of_testBit_eq
  intro i
  simp

theorem or_neg_one : or a (-1) = -1 := by
  apply eq_of_testBit_eq
  intro i
  simp

theorem xor_comm : xor a b = xor b a := by
  apply eq_of_testBit_eq
  intro i
  simp [Bool.xor_comm]

theorem xor_assoc : xor (xor a b) c = xor a (xor b c) := by
  apply eq_of_testBit_eq
  intro i
  simp

theorem xor_self : xor a a = 0 := by
  apply eq_of_testBit_eq
  intro i
  simp

theorem xor_zero : xor a 0 = a := by
  apply eq_of_testBit_eq
  intro i
  simp

theorem and_or_distrib : and a (or b c) = or (and a b) (and a c) := by
  apply eq_of_testBit_eq
  intro i
  simp [Bool.and_or_distrib_left]

theorem or_and_distrib : or a (and b c) = and (or a b) (or a c) := by
  apply eq_of_testBit_eq
  intro i
  simp [Bool.or_and_distrib_left]

/-! ## Masks -/

-- The powers are those of the core library, as in the definitions.
attribute [local instance (1100)] instPowNat

theorem without_mask (width n : Nat) :
    without (2 ^ width - 1) n = 2 ^ width - (n % 2 ^ width + 1) := by
  apply Nat.eq_of_testBit_eq
  intro i
  have hlt : n % 2 ^ width < 2 ^ width := Nat.mod_lt n (Nat.two_pow_pos width)
  rw [testBit_without, Nat.testBit_two_pow_sub_one, Nat.testBit_two_pow_sub_succ hlt,
    Nat.testBit_mod_two_pow]
  by_cases h : i < width <;> simp [h]

/-- The low bits of an integer, as many as a mask has. -/
theorem and_mask (a : Int) (width : Nat) :
    and a ((1 <<< width : Nat) - 1) = a % (2 ^ width : Nat) := by
  have hpos : 0 < 2 ^ width := Nat.two_pow_pos width
  have hmask : ((1 <<< width : Nat) - 1 : Int) = .ofNat (2 ^ width - 1) := by
    rw [Nat.one_shiftLeft, Int.ofNat_eq_natCast, Int.natCast_sub hpos]
    rfl
  rw [hmask]
  cases a with
  | ofNat m => exact congrArg Int.ofNat (Nat.and_two_pow_sub_one_eq_mod m width)
  | negSucc n =>
    have hlt : n % 2 ^ width < 2 ^ width := Nat.mod_lt n hpos
    rw [and, without_mask, Int.negSucc_emod n (by omega), Int.ofNat_eq_natCast,
      Int.natCast_sub hlt, Int.natCast_succ, Int.natCast_emod]
    omega

end Symbolic.TwosComplement
