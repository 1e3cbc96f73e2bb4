/-! Doubles as bit patterns: sign, magnitude, the two orders and rounding to nearest. -/
namespace Symbolic

-- The powers are those of the core library, whichever modules stand beside this one.
attribute [local instance (1100)] instPowNat

/-- A double, held as its 64-bit pattern, so that equality is equality of bits. -/
structure Binary64 where
  bits : UInt64
deriving DecidableEq, Inhabited

namespace Binary64

/-- The pattern below the sign bit. Patterns are ordered as the absolute values they stand for. -/
def magnitude (x : Binary64) : Nat := x.bits.toNat % 2 ^ (63 : Nat)

def signBit (x : Binary64) : Bool := decide (2 ^ (63 : Nat) ≤ x.bits.toNat)

def ofParts (negative : Bool) (magnitude : Nat) : Binary64 :=
  ⟨UInt64.ofNat (if negative then 2 ^ (63 : Nat) + magnitude else magnitude)⟩

/-- The magnitude of the infinities. Every larger magnitude is a NaN. -/
def infinityMagnitude : Nat := 2047 * 2 ^ (52 : Nat)

def zero : Binary64 := ofParts false 0
def infinity (negative : Bool) : Binary64 := ofParts negative infinityMagnitude

/-- The quiet NaN that reading the text `NaN` gives. -/
def nan : Binary64 := ofParts false (infinityMagnitude + 2 ^ (51 : Nat))

/-- The quiet NaN of an invalid operation. Its sign bit is set, and the structural order sees it. -/
def invalid : Binary64 := ofParts true (infinityMagnitude + 2 ^ (51 : Nat))

def isNaN (x : Binary64) : Bool := decide (infinityMagnitude < x.magnitude)
def isInfinite (x : Binary64) : Bool := decide (x.magnitude = infinityMagnitude)
def isZero (x : Binary64) : Bool := decide (x.magnitude = 0)

/-- Strictly below zero: neither a negative zero nor a NaN. -/
def isNegative (x : Binary64) : Bool := x.signBit && !x.isZero && !x.isNaN

/-- Flips the sign bit, of a zero and of a NaN too. -/
def negate (x : Binary64) : Binary64 := ofParts (!x.signBit) x.magnitude

/-- A NaN operand passes through an operation with its quiet bit set. -/
def quiet (x : Binary64) : Binary64 :=
  if x.magnitude / 2 ^ (51 : Nat) % 2 = 1 then x
  else ofParts x.signBit (x.magnitude + 2 ^ (51 : Nat))

/-- The position in the total order: negative NaNs, the numbers from below with `-0.0` before
`0.0`, positive NaNs. -/
def rank (x : Binary64) : Int :=
  if x.signBit then -(x.magnitude : Int) - 1 else x.magnitude

protected def compare (x y : Binary64) : Ordering := compare x.rank y.rank

instance : Ord Binary64 := ⟨Binary64.compare⟩

/-- The magnitude under its sign, where both zeros meet. -/
def signedMagnitude (x : Binary64) : Int :=
  if x.signBit then -(x.magnitude : Int) else x.magnitude

/-- The numeric order, in which a NaN has no place. -/
def numericCompare (x y : Binary64) : Option Ordering :=
  if x.isNaN || y.isNaN then none else some (compare x.signedMagnitude y.signedMagnitude)

/-- The absolute value of a finite double, counted in units of `2 ^ -1074`, the least one. -/
def units (x : Binary64) : Nat :=
  let exponent := x.magnitude / 2 ^ (52 : Nat)
  let fraction := x.magnitude % 2 ^ (52 : Nat)
  if exponent = 0 then fraction else (2 ^ (52 : Nat) + fraction) * 2 ^ (exponent - 1)

def signedUnits (x : Binary64) : Int := if x.signBit then -(x.units : Int) else x.units

/-- How many units make one. -/
def unitsPerOne : Nat := 2 ^ (1074 : Nat)

/-- The quotient rounded to the nearest natural number, a half to the even one. -/
def roundQuotient (num den : Nat) : Nat :=
  let floor := num / den
  let rest := 2 * (num % den)
  if rest < den then floor
  else if den < rest then floor + 1
  else floor + floor % 2

/-- The double nearest to `num / den` units, a half to the even neighbour. A significand that
rounds up to the next power of two carries into the exponent by itself, since both lie in one
number. -/
def ofQuotient (negative : Bool) (num den : Nat) : Binary64 :=
  let shift := (num / den).log2 - 52
  let magnitude := shift * 2 ^ (52 : Nat) + roundQuotient num (den * 2 ^ shift)
  ofParts negative (min magnitude infinityMagnitude)

/-- The double nearest to an integer; beyond the largest one this is an infinity. -/
def ofInt (n : Int) : Binary64 := ofQuotient (decide (n < 0)) (n.natAbs * unitsPerOne) 1

def ofNat (n : Nat) : Binary64 := ofQuotient false (n * unitsPerOne) 1

end Binary64
end Symbolic
