import Mathlib.Algebra.Ring.Int.Defs
import Mathlib.Tactic.Ring
import Symbolic.Expr.Value
import Symbolic.Proofs.TwosComplement
import Symbolic.Rules.Factoring

/-! The exact value of a semigroup operator over a list of integers, which has no order. -/
namespace Symbolic.SemigroupOp

-- The powers are those of the core library, as in the definitions.
attribute [local instance (1100)] instPowNat

variable {op inner : SemigroupOp} {vs ws : List Int}

theorem truth_ne_zero_iff {p : Prop} [Decidable p] : truth p ≠ 0 ↔ p := by
  simp only [truth]
  split <;> simp [*]

theorem apply_comm (op : SemigroupOp) (a b : Int) : op.apply a b = op.apply b a := by
  cases op with
  | add => exact Int.add_comm a b
  | mul => exact Int.mul_comm a b
  | bitAnd => exact TwosComplement.and_comm a b
  | bitOr => exact TwosComplement.or_comm a b
  | bitXor => exact TwosComplement.xor_comm a b
  | and => simp only [apply, and_comm]
  | or => simp only [apply, or_comm]

theorem apply_assoc (op : SemigroupOp) (a b c : Int) :
    op.apply (op.apply a b) c = op.apply a (op.apply b c) := by
  cases op with
  | add => exact Int.add_assoc a b c
  | mul => exact Int.mul_assoc a b c
  | bitAnd => exact TwosComplement.and_assoc a b c
  | bitOr => exact TwosComplement.or_assoc a b c
  | bitXor => exact TwosComplement.xor_assoc a b c
  | and => simp only [apply, truth_ne_zero_iff, and_assoc]
  | or => simp only [apply, truth_ne_zero_iff, or_assoc]

theorem apply_left_comm (op : SemigroupOp) (a b c : Int) :
    op.apply a (op.apply b c) = op.apply b (op.apply a c) := by
  rw [← apply_assoc, op.apply_comm a b, apply_assoc]

/-- What the operator sees of an operand: `&&` and `||` only its truth, the others all of it. -/
def seen (op : SemigroupOp) (a : Int) : Int := op.apply a op.neutral

theorem seen_of_isLogical_eq_false (h : op.isLogical = false) (a : Int) : op.seen a = a := by
  cases op with
  | add => exact Int.add_zero a
  | mul => exact Int.mul_one a
  | bitAnd => exact TwosComplement.and_neg_one a
  | bitOr => exact TwosComplement.or_zero a
  | bitXor => exact TwosComplement.xor_zero a
  | and | or => cases h

theorem seen_of_isLogical (h : op.isLogical = true) (a : Int) : op.seen a = truth (a ≠ 0) := by
  cases op with
  | and | or => simp [seen, apply, neutral]
  | add | mul | bitAnd | bitOr | bitXor => cases h

/-- A result is a truth value already where the operator is logical. -/
theorem seen_apply (op : SemigroupOp) (a b : Int) : op.seen (op.apply a b) = op.apply a b := by
  cases hop : op.isLogical with
  | false => exact seen_of_isLogical_eq_false hop _
  | true =>
    rw [seen_of_isLogical hop]
    cases op with
    | and | or => simp only [apply, truth_ne_zero_iff]
    | add | mul | bitAnd | bitOr | bitXor => cases hop

theorem seen_neutral (op : SemigroupOp) : op.seen op.neutral = op.neutral := by cases op <;> rfl

/-- More than it sees of an operand has no effect. -/
theorem apply_seen (op : SemigroupOp) (a b : Int) : op.apply a (op.seen b) = op.apply a b := by
  rw [seen, ← apply_assoc]
  exact seen_apply op a b

theorem seen_seen_of_isLogical (h : inner.isLogical = op.isLogical) (a : Int) :
    op.seen (inner.seen a) = op.seen a := by
  cases hop : op.isLogical with
  | false => rw [seen_of_isLogical_eq_false (h.trans hop)]
  | true =>
    rw [seen_of_isLogical (h.trans hop), ← seen_of_isLogical hop]
    exact seen_apply op a _

theorem seen_eq_zero_iff (op : SemigroupOp) {a : Int} : op.seen a = 0 ↔ a = 0 := by
  cases hop : op.isLogical with
  | false => rw [seen_of_isLogical_eq_false hop]
  | true =>
    rw [seen_of_isLogical hop, ← not_iff_not]
    exact truth_ne_zero_iff

/-- The operator over all of a list. -/
def total (op : SemigroupOp) : List Int → Int
  | [] => op.neutral
  | v :: vs => op.apply v (op.total vs)

@[simp] theorem total_nil : op.total [] = op.neutral := rfl

@[simp] theorem total_cons (v : Int) (vs : List Int) :
    op.total (v :: vs) = op.apply v (op.total vs) := rfl

theorem seen_total (op : SemigroupOp) (vs : List Int) : op.seen (op.total vs) = op.total vs := by
  cases vs with
  | nil => exact seen_neutral op
  | cons v vs => exact seen_apply op v _

theorem neutral_apply (op : SemigroupOp) (a : Int) : op.apply op.neutral a = op.seen a :=
  op.apply_comm op.neutral a

theorem total_perm (h : vs.Perm ws) : op.total vs = op.total ws := by
  induction h with
  | nil => rfl
  | cons v _ ih => rw [total_cons, total_cons, ih]
  | swap v w vs => exact op.apply_left_comm w v (op.total vs)
  | trans _ _ ih₁ ih₂ => exact ih₁.trans ih₂

theorem total_append (op : SemigroupOp) (vs ws : List Int) :
    op.total (vs ++ ws) = op.apply (op.total vs) (op.total ws) := by
  induction vs with
  | nil => rw [List.nil_append, total_nil, neutral_apply, seen_total]
  | cons v vs ih => rw [List.cons_append, total_cons, total_cons, ih, apply_assoc]

/-- Members may be replaced by others of which the operator sees the same. -/
theorem total_congr {α : Type} {f g : α → Int} {xs : List α}
    (h : ∀ x ∈ xs, op.seen (f x) = op.seen (g x)) : op.total (xs.map f) = op.total (xs.map g) := by
  induction xs with
  | nil => rfl
  | cons x xs ih =>
    rw [List.map_cons, List.map_cons, total_cons, total_cons,
      ih fun y hy => h y (List.mem_cons_of_mem _ hy), op.apply_comm (f x), op.apply_comm (g x),
      ← op.apply_seen _ (f x), ← op.apply_seen _ (g x), h x List.mem_cons_self]

theorem total_replicate_congr {a b : Int} (h : op.seen a = op.seen b) (n : Nat) :
    op.total (List.replicate n a) = op.total (List.replicate n b) := by
  have hcopies : op.total ((List.replicate n ()).map fun _ => a) =
      op.total ((List.replicate n ()).map fun _ => b) := total_congr fun _ _ => h
  simpa only [List.map_replicate] using hcopies

/-- A member that is left out counts as the neutral operand. -/
theorem total_filter {α : Type} (op : SemigroupOp) (p : α → Bool) (f : α → Int) (xs : List α) :
    op.total ((xs.filter p).map f) =
      op.total (xs.map fun x => if p x then f x else op.neutral) := by
  induction xs with
  | nil => rfl
  | cons x xs ih =>
    rw [List.map_cons, total_cons, ← ih]
    by_cases hp : p x = true
    · rw [List.filter_cons_of_pos hp, if_pos hp, List.map_cons, total_cons]
    · rw [List.filter_cons_of_neg hp, if_neg hp, neutral_apply, seen_total]

/-- Applying the operator to one operand again and again is applying it to their total. -/
theorem applyMany_eq {acc : Int} (h : op.seen acc = acc) (v : Int) (n : Nat) :
    op.applyMany acc v n = op.apply acc (op.total (List.replicate n v)) := by
  induction n with
  | zero => exact h.symm
  | succ n ih => rw [applyMany, ih, List.replicate_succ, total_cons, apply_assoc, op.apply_comm v]

theorem total_replicate_apply (op : SemigroupOp) (n : Nat) (a b : Int) :
    op.total (List.replicate n (op.apply a b)) =
      op.apply (op.total (List.replicate n a)) (op.total (List.replicate n b)) := by
  induction n with
  | zero => exact (seen_neutral op).symm
  | succ n ih =>
    simp only [List.replicate_succ, total_cons]
    rw [ih, apply_assoc, apply_assoc, op.apply_left_comm b]

theorem total_replicate_neutral (op : SemigroupOp) (n : Nat) :
    op.total (List.replicate n op.neutral) = op.neutral := by
  induction n with
  | zero => rfl
  | succ n ih => rw [List.replicate_succ, total_cons, ih, neutral_apply, seen_neutral]

/-- Copies of the members of a list are copies of its total. -/
theorem total_flatMap_replicate (op : SemigroupOp) (n : Nat) (vs : List Int) :
    op.total (vs.flatMap (List.replicate n)) = op.total (List.replicate n (op.total vs)) := by
  induction vs with
  | nil => exact (total_replicate_neutral op n).symm
  | cons v vs ih =>
    rw [List.flatMap_cons, total_append, ih, total_cons, total_replicate_apply]

theorem total_replicate_add (n : Nat) (v : Int) : total .add (List.replicate n v) = v * n := by
  induction n with
  | zero => exact (Int.mul_zero v).symm
  | succ n ih =>
    rw [List.replicate_succ, total_cons, ih]
    change v + v * n = v * (n + 1 : Nat)
    push_cast
    ring

theorem total_replicate_mul (n : Nat) (v : Int) : total .mul (List.replicate n v) = v ^ n := by
  induction n with
  | zero => exact (Int.pow_zero v).symm
  | succ n ih =>
    rw [List.replicate_succ, total_cons, ih, Int.pow_succ]
    exact Int.mul_comm v (v ^ n)

/-- The operators under which copies beyond the first change nothing. -/
theorem apply_self (hop : op = .bitAnd ∨ op = .bitOr ∨ op = .and ∨ op = .or) (v : Int) :
    op.apply v v = op.seen v := by
  rcases hop with rfl | rfl | rfl | rfl
  · rw [seen_of_isLogical_eq_false rfl]
    exact TwosComplement.and_self v
  · rw [seen_of_isLogical_eq_false rfl]
    exact TwosComplement.or_self v
  · rw [seen_of_isLogical rfl]
    simp [apply]
  · rw [seen_of_isLogical rfl]
    simp [apply]

theorem total_replicate_of_idempotent (hop : op = .bitAnd ∨ op = .bitOr ∨ op = .and ∨ op = .or)
    {n : Nat} (hn : 1 ≤ n) (v : Int) : op.total (List.replicate n v) = op.seen v := by
  induction n, hn using Nat.le_induction with
  | base => rfl
  | succ n _ ih => rw [List.replicate_succ, total_cons, ih, apply_seen, apply_self hop]

/-- Under `^` copies cancel in pairs. -/
theorem total_replicate_bitXor (n : Nat) (v : Int) :
    total .bitXor (List.replicate n v) = if n % 2 = 1 then v else 0 := by
  induction n with
  | zero => rfl
  | succ n ih =>
    rw [List.replicate_succ, total_cons, ih]
    by_cases hodd : n % 2 = 1
    · rw [if_pos hodd, if_neg (by omega)]
      exact TwosComplement.xor_self v
    · rw [if_neg hodd, if_pos (by omega)]
      exact TwosComplement.xor_zero v

theorem total_of_absorbing {z r : Int} (h : ∀ v, op.apply z v = r) (hm : z ∈ vs) :
    op.total vs = r := by
  induction vs with
  | nil => cases hm
  | cons v vs ih =>
    rcases List.mem_cons.mp hm with rfl | hm
    · exact h _
    · rw [total_cons, ih hm, ← h 0, apply_left_comm, h, h]

theorem distrib (hi : Rules.innerOf? op = some inner) (a b c : Int) :
    inner.apply a (op.apply b c) = op.apply (inner.apply a b) (inner.apply a c) := by
  cases op with
  | add =>
    cases hi
    exact Int.mul_add a b c
  | bitAnd =>
    cases hi
    exact TwosComplement.or_and_distrib a b c
  | bitOr =>
    cases hi
    exact TwosComplement.and_or_distrib a b c
  | and =>
    cases hi
    simp only [apply, truth_ne_zero_iff, or_and_left]
  | or =>
    cases hi
    simp only [apply, truth_ne_zero_iff, and_or_left]
  | mul | bitXor => cases hi

theorem inner_apply_neutral (hi : Rules.innerOf? op = some inner) (a : Int) :
    inner.apply a op.neutral = op.neutral := by
  cases op with
  | add =>
    cases hi
    exact Int.mul_zero a
  | bitAnd =>
    cases hi
    exact TwosComplement.or_neg_one a
  | bitOr =>
    cases hi
    exact TwosComplement.and_zero a
  | and | or =>
    cases hi
    simp [apply, neutral, truth]
  | mul | bitXor => cases hi

theorem inner_apply_total (hi : Rules.innerOf? op = some inner) (a : Int) (vs : List Int) :
    inner.apply a (op.total vs) = op.total (vs.map (inner.apply a)) := by
  induction vs with
  | nil => exact inner_apply_neutral hi a
  | cons v vs ih => rw [total_cons, distrib hi, ih, List.map_cons, total_cons]

end Symbolic.SemigroupOp
