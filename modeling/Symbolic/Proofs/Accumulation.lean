import Symbolic.Proofs.Exact

/-! Copies of a constant that are taken in at once: they may as well be taken in one by one, in two
portions, or after those of another constant. -/
namespace Symbolic.SemigroupOp

-- The powers are those of the core library, as in the definitions.
attribute [local instance (1100)] instPowNat

open Number TwosComplement

variable {op : SemigroupOp} {a v w : Int} {m n : Nat} {r : Number} {cause : NumericError}

/-- Copies of a value taken in one after the other. -/
def accumulateEach (op : SemigroupOp) (acc value : Number) : Nat → Except NumericError Number
  | 0 => .ok acc
  | count + 1 => (op.accumulateEach acc value count).bind fun acc => op.accumulate acc value 1

theorem accumulate_eq_ok_iff (hn : 1 ≤ n) : op.accumulate (.int a) (.int v) n = .ok r ↔
    (op = .mul → WithinEstimate v n) ∧ .int (op.apply a (op.total (List.replicate n v))) = r := by
  by_cases h : op = .mul → WithinEstimate v n
  · rw [accumulate_of_computed hn h, Except.ok.injEq, and_iff_right h]
  · obtain ⟨rfl, hrefused⟩ := Classical.not_imp.mp h
    rw [accumulate_of_refused hrefused]
    simp [hrefused]

theorem eq_mul_of_accumulate_eq_error (hn : 1 ≤ n)
    (h : op.accumulate (.int a) (.int v) n = .error cause) :
    op = .mul ∧ cause = .resultTooLarge := by
  refine ⟨?_, (foldsTo_accumulate hn).eq_of_error h⟩
  by_contra hop
  rw [accumulate_of_computed hn fun hmul => absurd hmul hop] at h
  cases h

/-- A single copy is never too large. -/
theorem accumulate_one (op : SemigroupOp) (a v : Int) :
    op.accumulate (.int a) (.int v) 1 = .ok (.int (op.apply a v)) := by
  rw [accumulate_of_computed (Nat.le_refl 1) fun _ => Or.inl (Nat.le_refl 1)]
  simp only [List.replicate_one, total_cons, total_nil]
  rw [← seen, apply_seen]

theorem accumulateEach_int (op : SemigroupOp) (a v : Int) (n : Nat) :
    op.accumulateEach (.int a) (.int v) n = .ok (.int (op.applyMany a v n)) := by
  induction n with
  | zero => rfl
  | succ n ih =>
    rw [accumulateEach, ih]
    exact accumulate_one op _ v

/-- From the first copy on the operator sees no more of the accumulator than it goes on to see. -/
theorem applyMany_of_pos (a v : Int) (hn : 1 ≤ n) :
    op.applyMany a v n = op.apply a (op.total (List.replicate n v)) := by
  induction n, hn using Nat.le_induction with
  | base => exact (apply_seen op a v).symm
  | succ n _ ih =>
    rw [applyMany, ih, List.replicate_succ, total_cons, apply_assoc, op.apply_comm v]

theorem accumulateEach_of_accumulate (hn : 1 ≤ n)
    (h : op.accumulate (.int a) (.int v) n = .ok r) :
    op.accumulateEach (.int a) (.int v) n = .ok r := by
  obtain ⟨_, rfl⟩ := (accumulate_eq_ok_iff hn).mp h
  rw [accumulateEach_int, applyMany_of_pos a v hn]

/-- Of copies that can be taken in at once each portion can be, and the second one after the
first. -/
theorem accumulate_portions (hm : 1 ≤ m) (hn : 1 ≤ n)
    (h : op.accumulate (.int a) (.int v) (m + n) = .ok r) :
    ∃ x, op.accumulate (.int a) (.int v) m = .ok x ∧ op.accumulate x (.int v) n = .ok r := by
  obtain ⟨hcomputed, rfl⟩ := (accumulate_eq_ok_iff (by omega)).mp h
  have hfirst (hop : op = .mul) : WithinEstimate v m := (hcomputed hop).of_le (by omega)
  have hsecond (hop : op = .mul) : WithinEstimate v n := (hcomputed hop).of_le (by omega)
  refine ⟨_, accumulate_of_computed hm hfirst, ?_⟩
  rw [accumulate_of_computed hn hsecond, List.replicate_add, total_append, apply_assoc]

/-- Whether copies are too large to be taken in does not depend on what was taken in before. -/
theorem accumulate_comm (a v w : Int) (hm : 1 ≤ m) (hn : 1 ≤ n) :
    (op.accumulate (.int a) (.int v) m).bind (fun x => op.accumulate x (.int w) n) =
      (op.accumulate (.int a) (.int w) n).bind (fun x => op.accumulate x (.int v) m) := by
  by_cases hv : op = .mul → WithinEstimate v m
  · by_cases hw : op = .mul → WithinEstimate w n
    · simp only [accumulate_of_computed hm hv, accumulate_of_computed hn hw, Except.bind]
      rw [apply_assoc, apply_assoc, op.apply_comm (op.total (List.replicate m v))]
    · obtain ⟨rfl, hrefused⟩ := Classical.not_imp.mp hw
      simp only [accumulate_of_computed hm hv, accumulate_of_refused hrefused, Except.bind]
  · obtain ⟨rfl, hrefused⟩ := Classical.not_imp.mp hv
    by_cases hw : WithinEstimate w n
    · have hcomputed : SemigroupOp.mul = .mul → WithinEstimate w n := fun _ => hw
      simp only [accumulate_of_refused hrefused, accumulate_of_computed hn hcomputed, Except.bind]
    · simp only [accumulate_of_refused hrefused, accumulate_of_refused hw, Except.bind]

/-- Copies of an integer that are taken in at once give what they give one by one. In two portions
they give the same, and those of two integers may change places, where they are refused too. Nothing
but a product is refused, for its size alone, and no product of several copies has more bits than
the bound. -/
theorem accumulate_repeats (op : SemigroupOp) (a v : Int) :
    (∀ n r, 1 ≤ n → op.accumulate (.int a) (.int v) n = .ok r →
      op.accumulateEach (.int a) (.int v) n = .ok r) ∧
    (∀ m n r, 1 ≤ m → 1 ≤ n → op.accumulate (.int a) (.int v) (m + n) = .ok r →
      ∃ x, op.accumulate (.int a) (.int v) m = .ok x ∧ op.accumulate x (.int v) n = .ok r) ∧
    (∀ w m n, 1 ≤ m → 1 ≤ n →
      (op.accumulate (.int a) (.int v) m).bind (fun x => op.accumulate x (.int w) n) =
        (op.accumulate (.int a) (.int w) n).bind (fun x => op.accumulate x (.int v) m)) ∧
    (∀ n cause, 1 ≤ n → op.accumulate (.int a) (.int v) n = .error cause →
      op = .mul ∧ cause = .resultTooLarge) ∧
    (∀ n r, op = .mul → 1 < n → op.accumulate (.int a) (.int v) n = .ok r →
      ∃ power, Number.powCount (.int v) n = .ok (.int power) ∧ r = .int (a * power) ∧
        bitLength power ≤ maxResultBits) := by
  refine ⟨fun n r => accumulateEach_of_accumulate, fun m n r => accumulate_portions,
    fun w m n => accumulate_comm a v w, fun n cause => eq_mul_of_accumulate_eq_error,
    fun n r hop hn h => ?_⟩
  subst hop
  obtain ⟨hcomputed, rfl⟩ := (accumulate_eq_ok_iff (by omega)).mp h
  have hwithin : WithinEstimate v n := hcomputed rfl
  refine ⟨v ^ n, boundedPower_of_withinEstimate hwithin, ?_, hwithin.bitLength_pow_le hn⟩
  rw [total_replicate_mul]
  rfl

/-- Five copies of `-3` multiplied by 2: one by one, as two and three copies, and before or after
three copies of 10. Of some eight million copies the product is refused. -/
theorem accumulate_repeats_of_product :
    (1 ≤ 5 ∧ accumulate .mul (.int 2) (.int (-3)) 5 = .ok (.int (-486))) ∧
      accumulateEach .mul (.int 2) (.int (-3)) 5 = .ok (.int (-486)) ∧
      (∃ x, accumulate .mul (.int 2) (.int (-3)) 2 = .ok x ∧
        accumulate .mul x (.int (-3)) 3 = .ok (.int (-486))) ∧
      (accumulate .mul (.int 2) (.int (-3)) 5).bind (fun x => accumulate .mul x (.int 10) 3) =
        (accumulate .mul (.int 2) (.int 10) 3).bind (fun x => accumulate .mul x (.int (-3)) 5) ∧
      accumulate .mul (.int 2) (.int (-3)) 8388609 = .error .resultTooLarge ∧
      ∃ power, Number.powCount (.int (-3)) 5 = .ok (.int power) ∧
        Number.int (-486) = .int (2 * power) ∧ bitLength power ≤ maxResultBits := by
  have hvalue : accumulate .mul (.int 2) (.int (-3)) 5 = .ok (.int (-486)) := by decide
  obtain ⟨heach, hportions, hcomm, _, hpower⟩ := accumulate_repeats .mul 2 (-3)
  exact ⟨⟨by decide, hvalue⟩, heach 5 _ (by decide) hvalue,
    hportions 2 3 _ (by decide) (by decide) hvalue, hcomm 10 5 3 (by decide) (by decide),
    accumulate_of_refused (not_withinEstimate_iff.mpr ⟨by decide, by decide, by decide⟩),
    hpower 5 _ rfl (by decide) hvalue⟩

end Symbolic.SemigroupOp
