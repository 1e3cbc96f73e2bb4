import Symbolic.Bag
import Symbolic.Expr.Occurrence

/-! The shape of a simplified node, said of its operator and its operands, without rules and
runs. -/
namespace Symbolic

/-- A constant operand that decides the value of the operation alone. -/
def SemigroupOp.Absorbs : SemigroupOp → Number → Prop
  | .mul, value => value.isZero = true
  | .bitAnd, value => value = .int 0
  | .bitOr, value => value = .int (-1)
  | .and, value => value.isTruthy = false
  | .or, value => value.isTruthy = true
  | .add, _ | .bitXor, _ => False

/-- Whether common operands of `inner` can be pulled out of the operands of an operator. -/
def SemigroupOp.Dual : SemigroupOp → SemigroupOp → Prop
  | .add, inner => inner = .mul
  | .bitAnd, inner => inner = .bitOr
  | .bitOr, inner => inner = .bitAnd
  | .and, inner => inner = .or
  | .or, inner => inner = .and
  | .mul, _ | .bitXor, _ => False

namespace Expr

/-- The term itself, or an operand of it where it is an operation of `inner`. Constants are no
factors. -/
def HasFactor (inner : SemigroupOp) (term factor : Expr) : Prop :=
  factor.isConstant = false ∧
    (term = factor ∨ ∃ terms, term = .nary inner terms ∧ factor ∈ Bag.keys terms)

/-- A negative constant, or a product with a negative coefficient. -/
def IsNegativeTerm : Expr → Prop
  | .constant value => value.isNegative = true
  | .nary .mul terms => ∃ value, value.isNegative = true ∧ .constant value ∈ Bag.keys terms
  | _ => False

/-- A negative term, or a sum that has one. -/
def HasNegativeTerm (e : Expr) : Prop :=
  e.IsNegativeTerm ∨
    ∃ terms, e = .nary .add terms ∧ ∃ term ∈ Bag.keys terms, term.IsNegativeTerm

end Expr

/-- The operands of a semigroup operator where nothing is left to flatten, group, cancel, fold or
factor. -/
structure ReducedTerms (op : SemigroupOp) (terms : Bag) : Prop where
  two_le_length : 2 ≤ terms.length
  nodup : (Bag.keys terms).Nodup
  count_eq_one : ∀ entry ∈ terms, entry.2 = 1
  flat : ∀ e ∈ Bag.keys terms, e.op? ≠ some (.semigroup op)
  constant_unique : ∀ v w : Number, .constant v ∈ Bag.keys terms → .constant w ∈ Bag.keys terms →
    v = w
  ne_identity : ∀ v : Number, .constant v ∈ Bag.keys terms → v ≠ op.identity
  not_absorbs : ∀ v : Number, .constant v ∈ Bag.keys terms → ¬ op.Absorbs v
  unshared : ∀ inner, op.Dual inner → ∀ e ∈ Bag.keys terms, ∀ e' ∈ Bag.keys terms, e ≠ e' →
    ∀ factor, ¬ (e.HasFactor inner factor ∧ e'.HasFactor inner factor)

/-- The operands of a binary operator where nothing is left to fold, and of a comparison where
nothing is left to decide or to move across. -/
structure ReducedOperands (op : BinaryOp) (lhs rhs : Expr) : Prop where
  nonconstant : ¬ (lhs.isConstant = true ∧ rhs.isConstant = true)
  distinct : op.isComparison = true → lhs ≠ rhs
  nonzero : op = .eq ∨ op = .ne → lhs ≠ .int 0 ∧ rhs ≠ .int 0
  nonnegative : op = .lt ∨ op = .le →
    (rhs = .int 0 → ¬ lhs.HasNegativeTerm) ∧ (lhs = .int 0 → ¬ rhs.HasNegativeTerm)

/-- The shape that simplification by the default rules leaves a node in. Atoms and calls have
any. -/
def Expr.Reduced : Expr → Prop
  | .constant _ | .symbol _ | .call .. => True
  | .nary op terms => ReducedTerms op terms
  | .unary op arg =>
    arg.isConstant = false ∧ (op = .not → ∀ inner ∈ arg.op?, inner.isComparison = false)
  | .binary op lhs rhs => ReducedOperands op lhs rhs
  | .conditional test _ _ => test.isConstant = false

end Symbolic
