import Symbolic.Proofs.Division
import Symbolic.Proofs.Exponentiation
import Symbolic.Proofs.Meaning
import Symbolic.Proofs.Sign
import Symbolic.Proofs.TwosComplement
import Symbolic.Rules.Folding

/-! Constants are folded exactly: an operation on integers gives its value, or is refused as too
large. -/
namespace Symbolic

-- The powers are those of the core library, as in the definitions.
attribute [local instance (1100)] instPowNat

theorem ofBool_eq_int_truth (p : Prop) [Decidable p] :
    Number.ofBool (decide p) = .int (truth p) := by
  by_cases h : p
  · simp [h, Number.ofBool, truth]
    rfl
  · simp [h, Number.ofBool, truth]
    rfl

/-- Folding gives the integer, unless it refuses to compute a power of that size. -/
def FoldsTo (result : Except NumericError Number) (v : Int) : Prop :=
  result = .ok (.int v) ∨ result = .error .resultTooLarge

namespace FoldsTo

variable {result : Except NumericError Number} {r : Number} {v : Int} {cause : NumericError}

theorem eq_of_ok (h : FoldsTo result v) (hr : result = .ok r) : r = .int v := by
  rcases h with h | h
  · exact Except.ok.inj (hr.symm.trans h)
  · cases hr.symm.trans h

theorem eq_of_error (h : FoldsTo result v) (hr : result = .error cause) :
    cause = .resultTooLarge := by
  rcases h with h | h
  · cases hr.symm.trans h
  · exact Except.error.inj (hr.symm.trans h)

end FoldsTo

namespace Number

theorem isTruthy_int (v : Int) : (int v).isTruthy = decide (v ≠ 0) := by
  simp [isTruthy, isZero]

theorem foldsTo_boundedPower (base : Int) (exponent : Nat) :
    FoldsTo (boundedPower base exponent) (base ^ exponent) := by
  by_cases h : WithinEstimate base exponent
  · exact Or.inl (boundedPower_of_withinEstimate h)
  · exact Or.inr (boundedPower_of_not_withinEstimate h)

theorem mod_two_pow_add {word low k m : Nat} (hlow : low < 2 ^ k) :
    (word * 2 ^ k + low) % 2 ^ (k + m) = word * 2 ^ k % 2 ^ (k + m) + low := by
  have hmod : word * 2 ^ k % 2 ^ (k + m) = word % 2 ^ m * 2 ^ k := by
    rw [Nat.pow_add, Nat.mul_comm (2 ^ k), Nat.mul_mod_mul_right]
  have hlt : word % 2 ^ m * 2 ^ k + low < 2 ^ (k + m) := by
    have hword : word % 2 ^ m + 1 ≤ 2 ^ m := Nat.mod_lt _ (Nat.two_pow_pos m)
    have := Nat.mul_le_mul_right (2 ^ k) hword
    simp only [Nat.add_mul] at this
    rw [Nat.pow_add, Nat.mul_comm (2 ^ k)]
    omega
  rw [Nat.add_mod, hmod, Nat.mod_eq_of_lt (a := low), Nat.mod_eq_of_lt hlt]
  exact Nat.lt_of_lt_of_le hlow (Nat.pow_le_pow_right (by omega) (Nat.le_add_right k m))

/-- The bits that leave a word at its upper end come in at its lower one. -/
theorem rotateWord_eq {word k width : Nat} (hword : word < 2 ^ width) (hk : k < width) :
    rotateWord word k width = word * 2 ^ k % 2 ^ width + word / 2 ^ (width - k) := by
  obtain ⟨m, rfl⟩ : ∃ m, width = k + m := ⟨width - k, by omega⟩
  have hlow : word / 2 ^ m < 2 ^ k := by
    rw [Nat.div_lt_iff_lt_mul (Nat.two_pow_pos m), ← Nat.pow_add]
    exact hword
  rw [rotateWord, Nat.add_sub_cancel_left, Nat.shiftRight_eq_div_pow, Nat.shiftLeft_eq,
    Nat.mul_comm word, ← Nat.two_pow_add_eq_or_of_lt hlow, Nat.mul_comm _ word,
    mod_two_pow_add hlow]

/-- The low bits of an integer, rotated as a word and as an integer. -/
theorem int_rotateWord {a : Int} {k width : Nat} (hk : k % width < width) :
    Number.int (rotateWord (a % (2 ^ width : Nat)).toNat (k % width) width) =
      .int (rotated width a k) := by
  have hpos : (0 : Int) < (2 ^ width : Nat) := by
    exact_mod_cast Nat.two_pow_pos width
  have hword : ((a % (2 ^ width : Nat)).toNat : Int) = a % (2 ^ width : Nat) :=
    Int.toNat_of_nonneg (Int.emod_nonneg a (by omega))
  have hlt : (a % (2 ^ width : Nat)).toNat < 2 ^ width := by
    have := Int.emod_lt_of_pos a hpos
    omega
  rw [rotateWord_eq hlt hk, rotated]
  push_cast at hword ⊢
  rw [hword]

theorem foldsTo_pow {a b : Int} (hb : ¬ b < 0) : FoldsTo (pow (.int a) (.int b)) (a ^ b.toNat) := by
  obtain ⟨e, rfl⟩ := Int.eq_ofNat_of_zero_le (Int.not_lt.mp hb)
  by_cases hlt : e < wordCount
  · rw [pow_int_of_lt hlt]
    exact foldsTo_boundedPower a e
  · rw [pow_int_of_not_lt hlt]
    exact Or.inr rfl

/-- The low bits fit a machine word. -/
theorem toWord_mod {width : Nat} (hwidth : width ≤ 64) (a : Int) :
    toWord 64 (a % (2 ^ width : Nat)) = .ok (a % (2 ^ width : Nat)).toNat := by
  have hpos : 0 < 2 ^ width := Nat.two_pow_pos width
  have hle : 2 ^ width ≤ 2 ^ 64 := Nat.pow_le_pow_right (by decide) hwidth
  have hlt : a % (2 ^ width : Nat) < (2 ^ width : Nat) := Int.emod_lt_of_pos a (by omega)
  exact if_pos ⟨Int.emod_nonneg a (by omega), by omega⟩

/-- So does what is left of an amount. -/
theorem toWord_tmod {width : Nat} (hwidth : 1 ≤ width ∧ width ≤ 64) (n : Nat) :
    toWord 32 ((n : Int).tmod width) = .ok (n % width) := by
  have hlt : n % width < width := Nat.mod_lt n (by omega)
  rw [← Int.ofNat_tmod]
  exact if_pos ⟨by omega, by omega⟩

/-- Neither operand is ever refused for its size. -/
theorem rotationOperands_int {a b : Int} {width : Nat} (h : ¬ (b < 0 ∨ width < 1 ∨ 64 < width)) :
    rotationOperands (.int a) (.int b) width =
      .ok ((a % (2 ^ width : Nat)).toNat, b.toNat % width) := by
  obtain ⟨n, rfl⟩ := Int.eq_ofNat_of_zero_le (show 0 ≤ b by omega)
  have hwidth : 1 ≤ width ∧ width ≤ 64 := by omega
  rw [rotationOperands, if_pos hwidth]
  simp only [TwosComplement.and_mask, if_neg (Int.natCast_nonneg n).not_gt]
  rw [toWord_mod hwidth.2 a, toWord_tmod hwidth n]
  rfl

theorem rotateLeft_int {a b : Int} {width : Nat} (h : ¬ (b < 0 ∨ width < 1 ∨ 64 < width)) :
    rotateLeft (.int a) (.int b) width = .ok (.int (rotated width a b.toNat)) := by
  have hk : b.toNat % width < width := Nat.mod_lt _ (by omega)
  rw [rotateLeft, rotationOperands_int h, ← int_rotateWord hk]
  rfl

theorem rotateRight_int {a b : Int} {width : Nat} (h : ¬ (b < 0 ∨ width < 1 ∨ 64 < width)) :
    rotateRight (.int a) (.int b) width =
      .ok (.int (rotated width a (width - b.toNat % width))) := by
  have hk : (width - b.toNat % width) % width < width := Nat.mod_lt _ (by omega)
  rw [rotateRight, rotationOperands_int h, ← int_rotateWord hk]
  rfl

end Number

/-- Where the exact operation on integers has a value, folding gives no other one and no other
failure. -/
theorem BinaryOp.foldsTo_of_result? {op : BinaryOp} {width : Nat} {a b v : Int}
    (hv : op.result? width a b = some v) : FoldsTo (op.eval (.int a) (.int b) width) v := by
  cases op with
  | floorDiv =>
    obtain ⟨hb, ⟨⟩⟩ := Option.ite_none_left_eq_some.mp hv
    exact Or.inl (Number.floorDiv_int hb)
  | trueDiv => cases hv
  | mod =>
    obtain ⟨hb, ⟨⟩⟩ := Option.ite_none_left_eq_some.mp hv
    exact Or.inl (Number.modulo_int hb)
  | shr =>
    obtain ⟨hb, ⟨⟩⟩ := Option.ite_none_left_eq_some.mp hv
    exact Or.inl (Number.shr_int hb)
  | pow =>
    obtain ⟨hb, ⟨⟩⟩ := Option.ite_none_left_eq_some.mp hv
    exact Number.foldsTo_pow hb
  | rol =>
    obtain ⟨hallowed, ⟨⟩⟩ := Option.ite_none_left_eq_some.mp hv
    exact Or.inl (Number.rotateLeft_int hallowed)
  | ror =>
    obtain ⟨hallowed, ⟨⟩⟩ := Option.ite_none_left_eq_some.mp hv
    exact Or.inl (Number.rotateRight_int hallowed)
  | eq | ne | lt | le =>
    cases hv
    refine Or.inl (congrArg Except.ok ?_)
    simp only [Number.numericCompare, ne_eq, Option.some.injEq, compare_eq_iff_eq,
      compare_lt_iff_lt, ← Bool.decide_or, ← le_iff_lt_or_eq, ofBool_eq_int_truth]

theorem UnaryOp.eval_int (op : UnaryOp) (a : Int) : op.eval (.int a) = .ok (.int (op.apply a)) := by
  cases op with
  | bitNot => rfl
  | not =>
    refine congrArg Except.ok ?_
    simp only [Number.isTruthy_int, apply, ← ofBool_eq_int_truth]
    simp

namespace SemigroupOp

variable {op : SemigroupOp}

theorem identity_eq (op : SemigroupOp) : op.identity = .int op.neutral := by cases op <;> rfl

/-- Copies of a constant are taken in at once as they would be one by one, where their product is
not too large to be computed. -/
theorem accumulate_of_computed {a v : Int} {n : Nat} (hn : 1 ≤ n)
    (h : op = .mul → Number.WithinEstimate v n) :
    op.accumulate (.int a) (.int v) n =
      .ok (.int (op.apply a (op.total (List.replicate n v)))) := by
  cases op with
  | add =>
    rw [total_replicate_add]
    rfl
  | mul =>
    rw [total_replicate_mul, accumulate, Number.powCount,
      Number.boundedPower_of_withinEstimate (h rfl)]
    rfl
  | bitAnd | bitOr =>
    rw [total_replicate_of_idempotent (by simp) hn, apply_seen]
    rfl
  | bitXor =>
    simp only [accumulate, total_replicate_bitXor]
    by_cases hodd : n % 2 = 1
    · rw [if_pos hodd, if_neg (by omega)]
      rfl
    · rw [if_neg hodd, if_pos (by omega), show apply .bitXor a 0 = a from TwosComplement.xor_zero a]
  | and | or =>
    rw [total_replicate_of_idempotent (by simp) hn, apply_seen]
    refine congrArg Except.ok ?_
    simp only [Number.isTruthy_int, ← Bool.decide_and, ← Bool.decide_or, ofBool_eq_int_truth, apply]

theorem accumulate_of_refused {a v : Int} {n : Nat} (h : ¬ Number.WithinEstimate v n) :
    accumulate .mul (.int a) (.int v) n = .error .resultTooLarge := by
  rw [accumulate, Number.powCount, Number.boundedPower_of_not_withinEstimate h]
  rfl

theorem foldsTo_accumulate {a v : Int} {n : Nat} (hn : 1 ≤ n) :
    FoldsTo (op.accumulate (.int a) (.int v) n) (op.apply a (op.total (List.replicate n v))) := by
  by_cases h : op = .mul → Number.WithinEstimate v n
  · exact Or.inl (accumulate_of_computed hn h)
  · obtain ⟨rfl, hrefused⟩ := Classical.not_imp.mp h
    exact Or.inr (accumulate_of_refused hrefused)

/-- An absorbing constant gives the total, whatever the other operands are. -/
theorem absorbed?_int_eq_some {z : Int} {r : Number} (h : Rules.absorbed? op (.int z) = some r) :
    ∃ v, r = .int v ∧ ∀ w, op.apply z w = v := by
  cases op with
  | mul =>
    obtain ⟨hz, ⟨⟩⟩ := Option.ite_none_right_eq_some.mp h
    obtain rfl : z = 0 := of_decide_eq_true hz
    exact ⟨0, rfl, Int.zero_mul⟩
  | bitAnd =>
    obtain ⟨hz, ⟨⟩⟩ := Option.ite_none_right_eq_some.mp h
    obtain rfl : z = 0 := of_decide_eq_true hz
    exact ⟨0, rfl, fun w => (apply_comm .bitAnd 0 w).trans (TwosComplement.and_zero w)⟩
  | bitOr =>
    obtain ⟨hz, ⟨⟩⟩ := Option.ite_none_right_eq_some.mp h
    obtain rfl : z = -1 := of_decide_eq_true hz
    exact ⟨-1, rfl, fun w => (apply_comm .bitOr (-1) w).trans (TwosComplement.or_neg_one w)⟩
  | and =>
    obtain ⟨hz, ⟨⟩⟩ := Option.ite_none_right_eq_some.mp h
    obtain rfl : z = 0 := of_decide_eq_true hz
    exact ⟨0, rfl, fun w => by simp [apply, truth]⟩
  | or =>
    obtain ⟨hz, ⟨⟩⟩ := Option.ite_none_right_eq_some.mp h
    have hne : z ≠ 0 := by simpa [Number.isTruthy_int] using hz
    exact ⟨1, rfl, fun w => by simp [apply, truth, hne]⟩
  | add | bitXor => cases h

end SemigroupOp
end Symbolic
