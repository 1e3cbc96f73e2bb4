import Symbolic.Expr.Basic

/-! The structural order of expressions, which decides equality. -/
namespace Symbolic

theorem Binary64.rank_injective {x y : Binary64} (h : x.rank = y.rank) : x = y := by
  have hx := x.bits.toNat_lt
  have hy := y.bits.toNat_lt
  have : x.bits.toNat = y.bits.toNat := by
    simp only [Binary64.rank, Binary64.signBit, Binary64.magnitude, decide_eq_true_eq] at h
    split at h <;> split at h <;> omega
  cases x
  cases y
  simpa using UInt64.toNat_inj.1 this

theorem Binary64.compare_eq_iff (x y : Binary64) : compare x y = .eq ↔ x = y := by
  change compare x.rank y.rank = .eq ↔ x = y
  rw [Std.compare_eq_iff_eq]
  exact ⟨rank_injective, congrArg rank⟩

theorem Number.compare_eq_iff (a b : Number) : compare a b = .eq ↔ a = b := by
  change a.compare b = .eq ↔ a = b
  cases a <;> cases b <;> simp [Number.compare, Binary64.compare_eq_iff]

theorem SemigroupOp.compare_eq_iff (a b : SemigroupOp) : compare a b = .eq ↔ a = b := by
  cases a <;> cases b <;> decide

theorem UnaryOp.compare_eq_iff (a b : UnaryOp) : compare a b = .eq ↔ a = b := by
  cases a <;> cases b <;> decide

theorem BinaryOp.compare_eq_iff (a b : BinaryOp) : compare a b = .eq ↔ a = b := by
  cases a <;> cases b <;> decide

namespace Expr

/-- The place of a node's form: atoms come before operations, and these follow their operators. -/
def form : Expr → Nat
  | .constant _ => 0
  | .symbol _ => 1
  | .nary .. => 2
  | .unary .. => 3
  | .binary .. => 4
  | .conditional .. => 5
  | .call .. => 6

mutual

/-- The form first, then the operator, then the children from the left. Multisets compare as the
sequences of their keys and multiplicities. -/
protected def compare : Expr → Expr → Ordering
  | .constant a, .constant b => compare a b
  | .symbol a, .symbol b => compare a b
  | .nary op terms, .nary op' terms' => (compare op op').then (compareTerms terms terms')
  | .unary op arg, .unary op' arg' => (compare op op').then (arg.compare arg')
  | .binary op lhs rhs, .binary op' lhs' rhs' =>
    (compare op op').then ((lhs.compare lhs').then (rhs.compare rhs'))
  | .conditional test whenTrue whenFalse, .conditional test' whenTrue' whenFalse' =>
    (test.compare test').then ((whenTrue.compare whenTrue').then (whenFalse.compare whenFalse'))
  | .call callee args, .call callee' args' =>
    (callee.compare callee').then (compareArgs args args')
  | a, b => compare a.form b.form
termination_by structural e => e

def compareTerms : List (Expr × Nat) → List (Expr × Nat) → Ordering
  | [], [] => .eq
  | [], _ :: _ => .lt
  | _ :: _, [] => .gt
  | (e, n) :: rest, (e', n') :: rest' =>
    (e.compare e').then ((compare n n').then (compareTerms rest rest'))
termination_by structural terms => terms

def compareArgs : List Expr → List Expr → Ordering
  | [], [] => .eq
  | [], _ :: _ => .lt
  | _ :: _, [] => .gt
  | e :: rest, e' :: rest' => (e.compare e').then (compareArgs rest rest')
termination_by structural args => args

end

instance : Ord Expr := ⟨Expr.compare⟩

mutual

theorem compare_eq_iff (a b : Expr) : a.compare b = .eq ↔ a = b := by
  cases a <;> cases b <;>
    simp [Expr.compare, form, Ordering.then_eq_eq, Number.compare_eq_iff,
      SemigroupOp.compare_eq_iff, UnaryOp.compare_eq_iff, BinaryOp.compare_eq_iff,
      compare_eq_iff _ _, compareTerms_eq_iff _ _, compareArgs_eq_iff _ _]
termination_by structural a

theorem compareTerms_eq_iff (a b : List (Expr × Nat)) : compareTerms a b = .eq ↔ a = b := by
  match a, b with
  | [], [] => simp [compareTerms]
  | [], _ :: _ => simp [compareTerms]
  | _ :: _, [] => simp [compareTerms]
  | (e, n) :: rest, (e', n') :: rest' =>
    simp [compareTerms, Ordering.then_eq_eq, compare_eq_iff e e', compareTerms_eq_iff rest rest',
      and_assoc]
termination_by structural a

theorem compareArgs_eq_iff (a b : List Expr) : compareArgs a b = .eq ↔ a = b := by
  match a, b with
  | [], [] => simp [compareArgs]
  | [], _ :: _ => simp [compareArgs]
  | _ :: _, [] => simp [compareArgs]
  | e :: rest, e' :: rest' =>
    simp [compareArgs, Ordering.then_eq_eq, compare_eq_iff e e', compareArgs_eq_iff rest rest']
termination_by structural a

end

theorem ne_of_compare {a b : Expr} (h : compare a b ≠ .eq) : a ≠ b := mt (compare_eq_iff a b).mpr h

/-- Expressions at one place in memory are equal without a comparison. -/
instance : DecidableEq Expr := fun a b =>
  withPtrEqDecEq a b fun _ => decidable_of_iff _ (compare_eq_iff a b)

end Expr
end Symbolic
