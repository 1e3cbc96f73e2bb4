import Symbolic.Registry

/-! Constant folding: what depends on constants alone is replaced by its value. -/
namespace Symbolic.Rules

/-- The result of an evaluation as an expression, or the operator that is undefined there. -/
def folded (op : Operator) (result : Except NumericError Number) : Except SimplifyError Expr :=
  match result with
  | .ok value => .ok (.constant value)
  | .error cause => .error (.undefinedOperation op cause)

/-- The first ordered child, if it is a constant. -/
def firstConstant? (e : Expr) : Option Number := e.ordered.head?.bind Expr.constant?

def foldUnary : Rule where
  name := "fold-unary"
  trigger := .ofClass .unary
  applies _ e := (firstConstant? e).isSome
  rewrite _ e :=
    match e.op?, firstConstant? e with
    | some op, some value => folded op (op.evalUnary value)
    | _, _ => .ok e

def foldBinary : Rule where
  name := "fold-binary"
  trigger := .ofClass .binary
  applies _
    | .binary _ lhs rhs => lhs.isConstant && rhs.isConstant
    | _ => false
  rewrite ctx
    | .binary op (.constant lhs) (.constant rhs) =>
      folded (.binary op) (op.eval lhs rhs ctx.config.wordBits)
    | e => .ok e

/-- The value of an operation with the given constant operand, whatever the others are. -/
def absorbed? : SemigroupOp → Number → Option Number
  | .mul, value => if value.isZero then some value else none
  | .bitAnd, value => if value.isInt 0 then some 0 else none
  | .bitOr, value => if value.isInt (-1) then some (.int (-1)) else none
  | .and, value => if value.isZero then some 0 else none
  | .or, value => if value.isTruthy then some 1 else none
  | .add, _ | .bitXor, _ => none

/-- The value that the first absorbing child gives. -/
def absorbing? : Expr → Option Number
  | .nary op terms => terms.findSome? fun entry => entry.1.constant?.bind (absorbed? op)
  | _ => none

/-- `x * 0` becomes `0`. -/
def shortCircuit : Rule where
  name := "short-circuit"
  trigger := .anyOf [.semigroup .mul, .semigroup .bitAnd, .semigroup .bitOr, .semigroup .and,
    .semigroup .or]
  applies _ e := (absorbing? e).isSome
  rewrite _ e :=
    match absorbing? e with
    | some value => .ok (.constant value)
    | none => .ok e

def constantEntries (bag : Bag) : Bag := bag.filter fun entry => entry.1.isConstant

/-- The combination of all constant entries, from the left. -/
def accumulateAll (op : SemigroupOp) : Number → List (Expr × Nat) → Except NumericError Number
  | acc, [] => .ok acc
  | acc, (.constant value, count) :: rest =>
    match op.accumulate acc value count with
    | .ok acc => accumulateAll op acc rest
    | .error cause => .error cause
  | acc, _ :: rest => accumulateAll op acc rest

/-- The constant children become one, which is left out if it is the identity. -/
def foldNary : Rule where
  name := "fold-nary"
  trigger := .ofClass .semigroup
  applies _
    | .nary op terms =>
      match constantEntries terms with
      | [] => false
      | [(only, count)] => 1 < count || only = .constant op.identity
      | _ => true
    | _ => false
  rewrite _
    | .nary op terms =>
      match accumulateAll op op.identity terms with
      | .error cause => .error (.undefinedOperation (.semigroup op) cause)
      | .ok value =>
        let rest := terms.filter fun entry => !entry.1.isConstant
        .ok (.nary op (if value = op.identity then rest else Bag.insert (.constant value) rest))
    | e => .ok e

/-- An operation without children is its identity, and one with a single child is that child. -/
def naryBase : Rule where
  name := "nary-base"
  trigger := .ofClass .semigroup
  applies _
    | .nary _ [] => true
    | .nary _ [(_, 1)] => true
    | _ => false
  rewrite _
    | .nary _ [(child, 1)] => .ok child
    | .nary op [entry] => .ok (.nary op [entry])
    | .nary op _ => .ok (.constant op.identity)
    | e => .ok e

/-- A conditional with a constant condition is one of its branches. -/
def constantCondition : Rule where
  name := "constant-condition"
  trigger := .operator .conditional
  applies _ e := (firstConstant? e).isSome
  rewrite _ e :=
    match firstConstant? e with
    | some test => .ok ((e.ordered[if test.isTruthy then 1 else 2]?).getD e)
    | none => .ok e

def foldingFamily : List Rule :=
  [foldUnary, foldBinary, shortCircuit, foldNary, naryBase, constantCondition]

end Symbolic.Rules
