import Symbolic.Expr.Basic

/-! The exact integer that an expression stands for, where it stands for one. -/
namespace Symbolic

-- The powers are those of the core library, whichever modules stand beside this one.
attribute [local instance (1100)] instPowNat

/-- The integers that symbols stand for. -/
abbrev Assignment := String → Int

/-- The truth value of a proposition as an integer. -/
def truth (p : Prop) [Decidable p] : Int := if p then 1 else 0

def SemigroupOp.apply : SemigroupOp → Int → Int → Int
  | .add, a, b => a + b
  | .mul, a, b => a * b
  | .bitAnd, a, b => TwosComplement.and a b
  | .bitOr, a, b => TwosComplement.or a b
  | .bitXor, a, b => TwosComplement.xor a b
  | .and, a, b => truth (a ≠ 0 ∧ b ≠ 0)
  | .or, a, b => truth (a ≠ 0 ∨ b ≠ 0)

/-- The operand that changes nothing: for `&` all bits are set. -/
def SemigroupOp.neutral : SemigroupOp → Int
  | .add | .bitXor | .bitOr | .or => 0
  | .mul | .and => 1
  | .bitAnd => -1

/-- The operator applied to the same operand `count` times. -/
def SemigroupOp.applyMany (op : SemigroupOp) (acc value : Int) : Nat → Int
  | 0 => acc
  | count + 1 => op.apply (op.applyMany acc value count) value

def UnaryOp.apply : UnaryOp → Int → Int
  | .bitNot, a => TwosComplement.complement a
  | .not, a => truth (a = 0)

/-- The low `width` bits of `a` moved up by `amount` places, those that leave coming in below. -/
def rotated (width : Nat) (a : Int) (amount : Nat) : Int :=
  let word := a % 2 ^ width
  let k := amount % width
  word * 2 ^ k % 2 ^ width + word / 2 ^ (width - k)

/-- The quotient by a power of two rounded down. An amount that no machine word holds leaves only
the sign, as it does of every integer of less than `wordCount` bits. -/
def shifted (a : Int) (amount : Nat) : Int :=
  if amount < wordCount then a.fdiv (2 ^ amount) else if a < 0 then -1 else 0

/-- A zero divisor, a negative exponent and a negative amount have no result, nor has a rotation of
words that are not one to 64 bits wide. True division leaves the integers. -/
def BinaryOp.result? (width : Nat) : BinaryOp → Int → Int → Option Int
  | .floorDiv, a, b => if b = 0 then none else some (a.fdiv b)
  | .trueDiv, _, _ => none
  | .mod, a, b => if b = 0 then none else some (a.fmod b)
  | .shr, a, b => if b < 0 then none else some (shifted a b.toNat)
  | .pow, a, b => if b < 0 then none else some (a ^ b.toNat)
  | .rol, a, b =>
    if b < 0 ∨ width < 1 ∨ 64 < width then none else some (rotated width a b.toNat)
  | .ror, a, b =>
    if b < 0 ∨ width < 1 ∨ 64 < width then none
    else some (rotated width a (width - b.toNat % width))
  | .eq, a, b => some (truth (a = b))
  | .ne, a, b => some (truth (a ≠ b))
  | .lt, a, b => some (truth (a < b))
  | .le, a, b => some (truth (a ≤ b))

namespace Expr

mutual

/-- Calls and floats have no value, and of a conditional only the branch that is taken needs one. -/
def value? (width : Nat) (env : Assignment) : Expr → Option Int
  | .constant (.int v) => some v
  | .constant (.float _) => none
  | .symbol name => some (env name)
  | .nary op terms => termsValue? width env op op.neutral terms
  | .unary op arg => (arg.value? width env).map op.apply
  | .binary op lhs rhs =>
    (lhs.value? width env).bind fun a => (rhs.value? width env).bind fun b => op.result? width a b
  | .conditional test whenTrue whenFalse =>
    (test.value? width env).bind fun c =>
      if c ≠ 0 then whenTrue.value? width env else whenFalse.value? width env
  | .call .. => none
termination_by structural e => e

/-- The operands of a semigroup operator combined with `acc`, from the left. -/
def termsValue? (width : Nat) (env : Assignment) (op : SemigroupOp) (acc : Int) :
    List (Expr × Nat) → Option Int
  | [] => some acc
  | (e, count) :: rest =>
    (e.value? width env).bind fun v => termsValue? width env op (op.applyMany acc v count) rest
termination_by structural terms => terms

end
end Expr
end Symbolic
