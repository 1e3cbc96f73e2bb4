import Symbolic.Binary64.Basic

/-! Arithmetic on doubles: the exact result of the operands, rounded once. -/
namespace Symbolic.Binary64

/-- The operand that an operation with a NaN passes on: the first one. -/
def nanOperand? (x y : Binary64) : Option Binary64 :=
  if x.isNaN then some x.quiet else if y.isNaN then some y.quiet else none

/-- An exact sum of zero is negative only if both operands are. -/
def add (x y : Binary64) : Binary64 :=
  match nanOperand? x y with
  | some n => n
  | none =>
    if x.isInfinite then
      if y.isInfinite && x.signBit != y.signBit then invalid else x
    else if y.isInfinite then y
    else
      let sum := x.signedUnits + y.signedUnits
      if sum = 0 then ofParts (x.signBit && y.signBit) 0
      else ofQuotient (decide (sum < 0)) sum.natAbs 1

def mul (x y : Binary64) : Binary64 :=
  match nanOperand? x y with
  | some n => n
  | none =>
    let negative := x.signBit != y.signBit
    if x.isInfinite || y.isInfinite then
      if x.isZero || y.isZero then invalid else infinity negative
    else ofQuotient negative (x.units * y.units) unitsPerOne

def div (x y : Binary64) : Binary64 :=
  match nanOperand? x y with
  | some n => n
  | none =>
    let negative := x.signBit != y.signBit
    if x.isInfinite then if y.isInfinite then invalid else infinity negative
    else if y.isInfinite then ofParts negative 0
    else if y.isZero then if x.isZero then invalid else infinity negative
    else ofQuotient negative (x.units * unitsPerOne) y.units

/-- The remainder of truncated division. It is exact and takes the sign of the dividend. -/
def rem (x y : Binary64) : Binary64 :=
  match nanOperand? x y with
  | some n => n
  | none =>
    if x.isInfinite || y.isZero then invalid
    else if y.isInfinite then x
    else ofQuotient x.signBit (x.units % y.units) 1

/-- The largest integer that is not above. -/
def floor (x : Binary64) : Binary64 :=
  if x.isNaN then x.quiet
  else if x.isInfinite || x.isZero then x
  else if x.signBit then
    ofQuotient true ((x.units + unitsPerOne - 1) / unitsPerOne * unitsPerOne) 1
  else ofQuotient false (x.units / unitsPerOne * unitsPerOne) 1

def isOddInteger (x : Binary64) : Bool :=
  !x.isNaN && !x.isInfinite && x.units % unitsPerOne = 0 && x.units / unitsPerOne % 2 = 1

/-- The power as the platform's mathematical library rounds it. An exponent of zero and a base of
one give one, whatever the other operand. A NaN passes through as elsewhere, but under an odd
integer exponent it loses its sign. -/
def pow (x y : Binary64) : Binary64 :=
  let one := ofNat 1
  if y.isZero || x = one then one
  else
    match nanOperand? x y with
    | some n => if y.isOddInteger then ofParts false n.magnitude else n
    | none =>
      let power := Float.pow (Float.ofBits x.bits) (Float.ofBits y.bits)
      if power.isNaN then invalid else ⟨power.toBits⟩

end Symbolic.Binary64
