import Symbolic.Rules.Default

/-! Rules outside the default set: contradictory, growing, idle, failing and context-bound ones. -/
namespace Symbolic.Rules

/-- `~~x` becomes `x`. -/
def doubleComplement : Rule where
  name := "double-complement"
  trigger := .operator (.unary .bitNot)
  applies _ e := (e.ordered.head?.bind Expr.op?) = some (.unary .bitNot)
  rewrite _ e := .ok (((e.ordered.head?.bind fun inner => inner.ordered.head?)).getD e)

/-- `a < b` becomes `!(b <= a)`. -/
def negateLess : Rule where
  name := "negate-less"
  trigger := .operator (.binary .lt)
  applies _ _ := true
  rewrite _
    | .binary _ lhs rhs => .ok (.logicalNot (.cmpLe rhs lhs))
    | e => .ok e

/-- `a < b` becomes `b < a`, for ever. -/
def swap : Rule where
  name := "swap"
  trigger := .operator (.binary .lt)
  applies _ _ := true
  rewrite _
    | .binary _ lhs rhs => .ok (.cmpLt rhs lhs)
    | e => .ok e

/-- `~x` grows by two complements. -/
def grow : Rule where
  name := "grow"
  trigger := .operator (.unary .bitNot)
  applies _ e := e.ordered.head?.any Expr.isAtomic
  rewrite _ e := .ok (.bitNot (.bitNot e))

/-- A shift or a rotation by zero is dropped. -/
def dropZeroShift : Rule where
  name := "drop-zero-shift"
  trigger := .anyOf [.binary .shr, .binary .rol, .binary .ror]
  applies _ e := e.operands?.any fun (_, rhs) => rhs.isInt 0
  rewrite _
    | .binary _ lhs _ => .ok lhs
    | e => .ok e

/-- Applies everywhere and changes nothing. -/
def noop : Rule where
  name := "noop"
  trigger := .any
  applies _ _ := true
  rewrite _ e := .ok e

/-- `~x` in a sum becomes `-x + -1`. -/
def sumComplement : Rule where
  name := "sum-complement"
  trigger := .operator (.unary .bitNot)
  applies ctx _ := ctx.parent = some (.semigroup .add)
  rewrite _ e :=
    match e.ordered.head? with
    | some arg => .ok (.sub (.neg arg) (.int 1))
    | none => .ok e

/-- A call at the root is marked by a call of `root`. A node without a first child carries no mark
either. -/
def rootCall : Rule where
  name := "root-call"
  trigger := .operator .call
  applies ctx e := ctx.parent.isNone && e.ordered.head? ≠ some (.symbol "root")
  rewrite _ e := .ok (.call (.symbol "root") [e])

/-- An amount of rotation is taken modulo the word width. -/
def wrapRotate : Rule where
  name := "wrap-rotate"
  trigger := .operator (.binary .rol)
  applies _ e := e.ordered[1]?.any fun amount =>
    amount.op? ≠ some (.binary .mod) && !amount.isConstant
  rewrite ctx
    | .binary _ lhs rhs => .ok (.rol lhs (.mod rhs (.int ctx.config.wordBits)))
    | e => .ok e

/-- A conditional of whatever number of children the node has. -/
def badArity : Rule where
  name := "bad-arity"
  trigger := .operator (.binary .shr)
  applies _ _ := true
  rewrite _ e := (Expr.operation .conditional e.ordered).mapError .construction

def samples : List Rule :=
  [doubleComplement, negateLess, swap, grow, dropZeroShift, noop, sumComplement, rootCall,
    wrapRotate, badArity]

/-- The rule of a name. -/
def named? (name : String) : Option Rule := (all ++ samples).find? fun rule => rule.name = name

/-- The rules that a name stands for: a family, the default rules or a single rule. -/
def collection? : String → Option (List Rule)
  | "default" => some all
  | "family:semigroup" => some semigroupFamily
  | "family:fold_constant" => some foldingFamily
  | "family:compare" => some comparisonFamily
  | "family:distributive" => some factoringFamily
  | name => (named? name).map fun rule => [rule]

end Symbolic.Rules
