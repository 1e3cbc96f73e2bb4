import Symbolic.Binary64.Decimal
import Symbolic.Operator

/-! Constants: unbounded integers and doubles, which are never equal to each other. -/
namespace Symbolic

-- The powers are those of the core library, whichever modules stand beside this one.
attribute [local instance (1100)] instPowNat

inductive NumberKind
  | integer | float
deriving DecidableEq

def NumberKind.name : NumberKind → String
  | .integer => "integer"
  | .float => "float"

inductive Number
  | int (value : Int)
  | float (value : Binary64)
deriving DecidableEq

/-- The largest integer, in bits, that an exponentiation computes. -/
def maxResultBits : Nat := 2 ^ (24 : Nat)

/-- Why an operation is undefined over its operands. -/
inductive NumericError
  | divisionByZero
  | negativeShift
  | unsupportedOperand (kind : NumberKind)
  | invalidWidth (width : Nat)
  | resultTooLarge
  | notANumber
  | notFoldable (op : Operator)
deriving DecidableEq

def NumericError.message : NumericError → String
  | .divisionByZero => "division by zero"
  | .negativeShift => "negative shift amount"
  | .unsupportedOperand kind => "operand of kind " ++ kind.name ++ " is not supported"
  | .invalidWidth width => "invalid word width " ++ toString width
  | .resultTooLarge => "result exceeds " ++ toString maxResultBits ++ " bits"
  | .notANumber => "result is not a number"
  | .notFoldable op => "operator `" ++ op.tag ++ "` cannot be evaluated"

namespace Number

instance (n : Nat) : OfNat Number n := ⟨.int n⟩

def ofBool (b : Bool) : Number := if b then 1 else 0

def kind : Number → NumberKind
  | .int _ => .integer
  | .float _ => .float

def isInt : Number → Int → Bool
  | .int v, value => v = value
  | .float _, _ => false

/-- The integer zero and both float zeros. -/
def isZero : Number → Bool
  | .int v => v = 0
  | .float v => v.isZero

def isTruthy (n : Number) : Bool := !n.isZero

def isNegative : Number → Bool
  | .int v => v < 0
  | .float v => v.isNegative

/-- The nearest double. -/
def toBinary64 : Number → Binary64
  | .int v => .ofInt v
  | .float v => v

/-- The structural order: integers before floats, then by value. -/
protected def compare : Number → Number → Ordering
  | .int a, .int b => compare a b
  | .int _, .float _ => .lt
  | .float _, .int _ => .gt
  | .float a, .float b => compare a b

instance : Ord Number := ⟨Number.compare⟩

/-- The order by value across kinds; a NaN has no place in it. -/
def numericCompare : Number → Number → Option Ordering
  | .int a, .int b => some (compare a b)
  | a, b => a.toBinary64.numericCompare b.toBinary64

def toText : Number → String
  | .int v => toString v
  | .float v => v.toText

def debugText : Number → String
  | .int v => "Int(" ++ toString v ++ ")"
  | .float v => "Float(" ++ v.toText ++ ")"

end Number
end Symbolic
