import Symbolic.Binary64.Arithmetic
import Symbolic.Number.Basic
import Symbolic.TwosComplement

/-! Arithmetic on constants: exact on integers, in doubles as soon as an operand is one. -/
namespace Symbolic

-- The powers are those of the core library, whichever modules stand beside this one.
attribute [local instance (1100)] instPowNat

/-- The number of distinct machine words. -/
def wordCount : Nat := 2 ^ (64 : Nat)

namespace Number

def add : Number → Number → Number
  | .int a, .int b => .int (a + b)
  | a, b => .float (a.toBinary64.add b.toBinary64)

def mul : Number → Number → Number
  | .int a, .int b => .int (a * b)
  | a, b => .float (a.toBinary64.mul b.toBinary64)

def negate : Number → Number
  | .int v => .int (-v)
  | .float v => .float v.negate

/-- A sum of `count` equal terms. -/
def scale : Number → Nat → Number
  | .int v, count => .int (v * count)
  | .float v, count => .float (v.mul (.ofNat count))

/-- An operation that only integers have. -/
def onIntegers (f : Int → Int → Int) : Number → Number → Except NumericError Number
  | .int a, .int b => .ok (.int (f a b))
  | _, _ => .error (.unsupportedOperand .float)

def bitAnd : Number → Number → Except NumericError Number := onIntegers TwosComplement.and
def bitOr : Number → Number → Except NumericError Number := onIntegers TwosComplement.or
def bitXor : Number → Number → Except NumericError Number := onIntegers TwosComplement.xor

def bitNot : Number → Except NumericError Number
  | .int v => .ok (.int (TwosComplement.complement v))
  | .float _ => .error (.unsupportedOperand .float)

/-- True division gives a float even for integers. -/
def trueDiv (a b : Number) : Except NumericError Number :=
  if b.isZero then .error .divisionByZero
  else .ok (.float (a.toBinary64.div b.toBinary64))

/-- The truncated quotient and remainder. Where the remainder is not on the side of the divisor,
both move by one divisor. -/
def floorDivRem (a b : Int) : Int × Int :=
  let q := a.tdiv b
  let r := a.tmod b
  if r ≠ 0 ∧ ¬(r < 0 ↔ b < 0) then (q - 1, r + b) else (q, r)

/-- The quotient rounded down. -/
def floorDiv (a b : Number) : Except NumericError Number :=
  if b.isZero then .error .divisionByZero
  else match a, b with
    | .int a, .int b => .ok (.int (floorDivRem a b).1)
    | a, b => .ok (.float (a.toBinary64.div b.toBinary64).floor)

/-- A truncated remainder moved to the side of the divisor. -/
def floatModulo (a b : Binary64) : Binary64 :=
  let r := a.rem b
  if !r.isZero && r.isNegative != b.isNegative then r.add b else r

/-- The remainder of the quotient rounded down. It takes the sign of the divisor. -/
def modulo (a b : Number) : Except NumericError Number :=
  if b.isZero then .error .divisionByZero
  else match a, b with
    | .int a, .int b => .ok (.int (floorDivRem a b).2)
    | a, b => .ok (.float (floatModulo a.toBinary64 b.toBinary64))

/-- An integer power. Zero, one and minus one have their powers without a computation, so that an
exponent of any size is answered at once. -/
def intPower (base : Int) (exponent : Nat) : Int :=
  if exponent = 0 then 1
  else if base.natAbs ≤ 1 then if exponent % 2 = 1 then base else base * base
  else
    let power : Int := (base.natAbs ^ exponent : Nat)
    if base < 0 && exponent % 2 = 1 then -power else power

/-- The result has fewer than `bitLength base * exponent` bits, and the bound is on that estimate.
No base with one bit is refused, nor is an exponent of one. -/
def boundedPower (base : Int) (exponent : Nat) : Except NumericError Number :=
  let bits := TwosComplement.bitLength base
  if 1 < exponent ∧ 1 < bits ∧ maxResultBits < bits * exponent then .error .resultTooLarge
  else .ok (.int (intPower base exponent))

/-- An integer to a power that is no negative integer stays an integer, and all else is computed
in doubles. An integer exponent that no machine word holds is refused, whatever the base. -/
def pow (base exponent : Number) : Except NumericError Number :=
  match base, exponent with
  | .int b, .int (.ofNat e) =>
    if e < wordCount then boundedPower b e else .error .resultTooLarge
  | base, exponent =>
    let b := base.toBinary64
    let e := exponent.toBinary64
    if b.isZero && e.isNegative then .error .divisionByZero
    else
      let power := b.pow e
      if power.isNaN && !b.isNaN && !e.isNaN then .error .notANumber else .ok (.float power)

/-- A product of `count` equal factors. -/
def powCount : Number → Nat → Except NumericError Number
  | .int v, count => boundedPower v count
  | .float v, count => .ok (.float (v.pow (.ofNat count)))

/-- The quotient by a power of two rounded down. An amount that no machine word holds leaves only
the sign. -/
def shr : Number → Number → Except NumericError Number
  | .int value, .int amount =>
    if amount < 0 then .error .negativeShift
    else if amount < wordCount then .ok (.int (value >>> amount.toNat))
    else .ok (.int (if value < 0 then -1 else 0))
  | _, _ => .error (.unsupportedOperand .float)

/-- Rotates a word of `width` bits left by `amount`, which is below the width. -/
def rotateWord (word amount width : Nat) : Nat :=
  ((word <<< amount) ||| (word >>> (width - amount))) % 2 ^ width

/-- An integer as a machine word of so many bits, if it is one. -/
def toWord (bits : Nat) (a : Int) : Except NumericError Nat :=
  if 0 ≤ a ∧ a < (2 ^ bits : Nat) then .ok a.toNat else .error .resultTooLarge

/-- The low `width` bits of the first operand and the second modulo the width, as machine words. -/
def rotationOperands (value amount : Number) (width : Nat) : Except NumericError (Nat × Nat) :=
  if 1 ≤ width ∧ width ≤ 64 then
    match value, amount with
    | .int value, .int amount =>
      if amount < 0 then .error .negativeShift
      else do
        let mask : Int := (1 <<< width : Nat) - 1
        let word ← toWord 64 (TwosComplement.and value mask)
        let k ← toWord 32 (amount.tmod width)
        return (word, k)
    | _, _ => .error (.unsupportedOperand .float)
  else .error (.invalidWidth width)

def rotateLeft (value amount : Number) (width : Nat) : Except NumericError Number :=
  (rotationOperands value amount width).map fun (word, k) => .int (rotateWord word k width)

def rotateRight (value amount : Number) (width : Nat) : Except NumericError Number :=
  (rotationOperands value amount width).map fun (word, k) =>
    .int (rotateWord word ((width - k) % width) width)

end Number
end Symbolic
