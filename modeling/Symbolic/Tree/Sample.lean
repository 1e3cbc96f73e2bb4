import Symbolic.Rules.Sample
import Symbolic.Tree.Rules

/-! Rules on trees outside the default set. -/
namespace Symbolic.Tree.Rules

/-- `~~x` becomes `x`. -/
def doubleComplement : Rule where
  name := "double-complement"
  trigger := .operator (.unary .bitNot)
  applies _ t := return (t.places.head?.bind op?) = some (.unary .bitNot)
  rewrite _ t := return (t.places.head?.bind fun inner => inner.places.head?).getD t

/-- `a < b` becomes `!(b <= a)`. -/
def negateLess : Rule where
  name := "negate-less"
  trigger := .operator (.binary .lt)
  applies _ _ := return true
  rewrite _ t :=
    match t.operands? with
    | some (lhs, rhs) => return unary .not (binary .le rhs lhs)
    | none => return t

/-- `a < b` becomes `b < a`, for ever. -/
def swap : Rule where
  name := "swap"
  trigger := .operator (.binary .lt)
  applies _ _ := return true
  rewrite _ t :=
    match t.operands? with
    | some (lhs, rhs) => return binary .lt rhs lhs
    | none => return t

/-- `~x` grows by two complements. -/
def grow : Rule where
  name := "grow"
  trigger := .operator (.unary .bitNot)
  applies _ t := return t.places.head?.any isAtomic
  rewrite _ t := return unary .bitNot (unary .bitNot t)

/-- A shift or a rotation by zero is dropped. -/
def dropZeroShift : Rule where
  name := "drop-zero-shift"
  trigger := .anyOf [.binary .shr, .binary .rol, .binary .ror]
  applies _ t := return t.operands?.any fun (_, rhs) => rhs.isInt 0
  rewrite _ t :=
    match t.operands? with
    | some (lhs, _) => return lhs
    | none => return t

/-- Applies everywhere and changes nothing. -/
def noop : Rule where
  name := "noop"
  trigger := .any
  applies _ _ := return true
  rewrite _ t := return t

/-- `~x` in a sum becomes `-x + -1`. -/
def sumComplement : Rule where
  name := "sum-complement"
  trigger := .operator (.unary .bitNot)
  applies ctx _ := return ctx.parent = some (.semigroup .add)
  rewrite _ t :=
    match t.places.head? with
    | some arg => do sub (← neg arg) (int 1)
    | none => return t

/-- A call at the root is marked by a call of `root`. -/
def rootCall : Rule where
  name := "root-call"
  trigger := .operator .call
  applies ctx t := return ctx.parent.isNone && t.places.head? ≠ some (.symbol "root")
  rewrite _ t := return call (.symbol "root") [t]

/-- An amount of rotation is taken modulo the word width. -/
def wrapRotate : Rule where
  name := "wrap-rotate"
  trigger := .operator (.binary .rol)
  applies _ t :=
    return t.places[1]?.any fun amount => !amount.isOp (.binary .mod) && !amount.isConstant
  rewrite ctx t :=
    match t.operands? with
    | some (lhs, rhs) => return binary .rol lhs (binary .mod rhs (int ctx.config.wordBits))
    | none => return t

/-- A conditional of whatever number of children the node has. -/
def badArity : Rule where
  name := "bad-arity"
  trigger := .operator (.binary .shr)
  applies _ _ := return true
  rewrite _ t := operation .conditional t.places

def samples : List Rule :=
  [doubleComplement, negateLess, swap, grow, dropZeroShift, noop, sumComplement, rootCall,
    wrapRotate, badArity]

/-- The rule of a name. -/
def named? (name : String) : Option Rule := (all ++ samples).find? fun rule => rule.name = name

end Symbolic.Tree.Rules
