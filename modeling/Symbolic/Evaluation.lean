import Symbolic.Number.Arithmetic

/-! The arithmetic of each operator on constants. What is undefined is an error, never a guess. -/
namespace Symbolic

/-- The word width that rotations have unless a configuration sets another. -/
def defaultWordBits : Nat := 32

def UnaryOp.eval : UnaryOp → Number → Except NumericError Number
  | .bitNot, value => value.bitNot
  | .not, value => .ok (.ofBool !value.isTruthy)

/-- A comparison with a NaN holds only for `!=`. -/
def BinaryOp.eval (op : BinaryOp) (lhs rhs : Number) (wordBits : Nat) :
    Except NumericError Number :=
  match op with
  | .trueDiv => lhs.trueDiv rhs
  | .floorDiv => lhs.floorDiv rhs
  | .mod => lhs.modulo rhs
  | .pow => lhs.pow rhs
  | .shr => lhs.shr rhs
  | .rol => lhs.rotateLeft rhs wordBits
  | .ror => lhs.rotateRight rhs wordBits
  | .eq => .ok (.ofBool (lhs.numericCompare rhs = some .eq))
  | .ne => .ok (.ofBool (lhs.numericCompare rhs ≠ some .eq))
  | .lt => .ok (.ofBool (lhs.numericCompare rhs = some .lt))
  | .le => .ok (.ofBool (lhs.numericCompare rhs = some .lt || lhs.numericCompare rhs = some .eq))

namespace SemigroupOp

/-- Combines `acc` with `count` copies of `value` at once: `+` scales, `*` takes a power, `^`
cancels in pairs, and the others ignore repetition. -/
def accumulate (op : SemigroupOp) (acc value : Number) (count : Nat) :
    Except NumericError Number :=
  match op with
  | .add => .ok (acc.add (value.scale count))
  | .mul => (value.powCount count).map acc.mul
  | .bitAnd => acc.bitAnd value
  | .bitOr => acc.bitOr value
  | .bitXor => if count % 2 = 0 then .ok acc else acc.bitXor value
  | .and => .ok (.ofBool (acc.isTruthy && value.isTruthy))
  | .or => .ok (.ofBool (acc.isTruthy || value.isTruthy))

/-- The value of the operator over no operands. -/
def identity : SemigroupOp → Number
  | .add | .bitXor | .bitOr | .or => 0
  | .mul | .and => 1
  | .bitAnd => .int (-1)

end SemigroupOp

namespace Operator

def evalUnary (op : Operator) (value : Number) : Except NumericError Number :=
  match op with
  | .unary op => op.eval value
  | op => .error (.notFoldable op)

def evalBinary (op : Operator) (lhs rhs : Number) (wordBits : Nat) : Except NumericError Number :=
  match op with
  | .binary op => op.eval lhs rhs wordBits
  | op => .error (.notFoldable op)

def accumulate (op : Operator) (acc value : Number) (count : Nat) : Except NumericError Number :=
  match op with
  | .semigroup op => op.accumulate acc value count
  | op => .error (.notFoldable op)

def identity? : Operator → Option Number
  | .semigroup op => some op.identity
  | _ => none

end Operator
end Symbolic
