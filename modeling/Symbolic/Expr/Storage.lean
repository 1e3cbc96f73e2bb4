import Symbolic.Expr.Children
import Symbolic.Expr.WellFormed

/-! How an operation stores its children, what the class of its operator asks of the storage, and
the named constructors of two operands. -/
namespace Symbolic

/-- The children of an operation as they are stored. -/
inductive Storage
  | multiset (bag : Bag)
  | single (child : Expr)
  | ordered (children : List Expr)

/-- Semigroup operators store a canonical multiset, unary ones a single child, and all others as
many children in their order as they take. -/
def Storage.Fits (op : Operator) (storage : Storage) : Prop :=
  match op.operatorClass, storage with
  | .semigroup, .multiset bag => bag.Canonical
  | .unary, .single _ => True
  | .binary, .ordered children => children.length = 2
  | .ternary, .ordered children => children.length = 3
  | .variadic, .ordered children => 1 ≤ children.length
  | _, _ => False

namespace Expr

def storage? : Expr → Option Storage
  | .constant _ | .symbol _ => none
  | .nary _ terms => some (.multiset terms)
  | .unary _ arg => some (.single arg)
  | .binary _ lhs rhs => some (.ordered [lhs, rhs])
  | .conditional test whenTrue whenFalse => some (.ordered [test, whenTrue, whenFalse])
  | .call callee args => some (.ordered (callee :: args))

/-- The storage of the node fits its operator. -/
def WellStored (e : Expr) : Prop := ∀ op ∈ e.op?, ∀ storage ∈ e.storage?, storage.Fits op

/-- The named constructors of two operands. -/
def binaryBuilders : List (Expr → Expr → Expr) :=
  [sub, shl, add, mul, bitAnd, bitOr, bitXor, logicalAnd, logicalOr, trueDiv, floorDiv, mod,
    pow, shr, rol, ror, cmpEq, cmpNe, cmpLt, cmpLe, cmpGt, cmpGe]

end Expr
end Symbolic
