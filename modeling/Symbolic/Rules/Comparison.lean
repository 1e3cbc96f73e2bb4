import Symbolic.Registry

/-! Comparisons: equal sides, negation, differences against zero and equality with zero. -/
namespace Symbolic.Rules

def comparisons : List Operator := [.binary .eq, .binary .ne, .binary .lt, .binary .le]

/-- `x == x` is true and `x < x` is false. -/
def selfCompare : Rule where
  name := "self-compare"
  trigger := .anyOf comparisons
  applies _ e := e.operands?.any fun (lhs, rhs) => lhs = rhs
  rewrite _ e :=
    .ok (.constant (.ofBool (e.op? = some (.binary .eq) || e.op? = some (.binary .le))))

/-- The comparison that holds when the given one does not. -/
def negatedComparison? (lhs rhs : Expr) : BinaryOp → Option Expr
  | .eq => some (.binary .ne lhs rhs)
  | .ne => some (.binary .eq lhs rhs)
  | .lt => some (.binary .le rhs lhs)
  | .le => some (.binary .lt rhs lhs)
  | _ => none

/-- `!(a < b)` becomes `b <= a`. -/
def negatedCompare : Rule where
  name := "negated-compare"
  trigger := .operator (.unary .not)
  applies _ e := (e.ordered.head?.bind Expr.op?).any Operator.isComparison
  rewrite _ e :=
    match e.ordered.head? with
    | some (.binary op lhs rhs) => .ok ((negatedComparison? lhs rhs op).getD e)
    | _ => .ok e

/-- The first negative constant that occurs once in a product. -/
def negativeCoefficient? (terms : List (Expr × Nat)) : Option Number :=
  terms.findSome? fun (child, count) =>
    child.constant?.filter fun value => count = 1 && value.isNegative

/-- The negation of a negative constant, or of a product with a negative coefficient. -/
def negatedTerm? : Expr → Option Expr
  | .constant value => if value.isNegative then some (.constant value.negate) else none
  | .nary .mul terms =>
    (negativeCoefficient? terms).map fun value =>
      .nary .mul (Bag.insert (.constant value.negate) (Bag.removeOne (.constant value) terms))
  | _ => none

/-- A difference that is compared with zero. -/
structure Difference where
  positive : Bag
  /-- The negative terms, negated. -/
  negative : Bag
  zeroOnLeft : Bool

def summands : Expr → Bag
  | .nary .add terms => terms
  | e => [(e, 1)]

def positiveTerms (terms : Bag) : Bag := terms.filter fun entry => (negatedTerm? entry.1).isNone

def negativeTerms (terms : Bag) : Bag :=
  Bag.ofEntries (terms.filterMap fun (term, count) =>
    (negatedTerm? term).map fun flipped => (flipped, count))

/-- The sum that a comparison has against an integer zero, if it has negative terms. -/
def difference? (e : Expr) : Option Difference :=
  match e.operands? with
  | none => none
  | some (lhs, rhs) =>
    let side := if rhs.isInt 0 then some (lhs, false)
      else if lhs.isInt 0 then some (rhs, true) else none
    side.bind fun (sum, zeroOnLeft) =>
      let negative := negativeTerms (summands sum)
      if negative.isEmpty then none
      else some ⟨positiveTerms (summands sum), negative, zeroOnLeft⟩

/-- `a + -1 * b < 0` becomes `a < b`. -/
def subtractCompare : Rule where
  name := "subtract-compare"
  trigger := .anyOf comparisons
  applies _ e := (difference? e).isSome
  rewrite _ e :=
    match e, difference? e with
    | .binary op _ _, some d =>
      let positive := Expr.nary .add d.positive
      let negative := Expr.nary .add d.negative
      .ok (if d.zeroOnLeft then .binary op negative positive else .binary op positive negative)
    | e, _ => .ok e

/-- The operand that is compared with an integer zero. -/
def comparedWithZero? (e : Expr) : Option Expr :=
  e.operands?.bind fun (lhs, rhs) =>
    if rhs.isInt 0 then some lhs else if lhs.isInt 0 then some rhs else none

/-- `a == 0` becomes `!a`, and `a != 0` becomes `!!a`. -/
def compareZero : Rule where
  name := "compare-zero"
  trigger := .anyOf [.binary .eq, .binary .ne]
  applies _ e := (comparedWithZero? e).isSome
  rewrite _ e :=
    match comparedWithZero? e with
    | some operand =>
      .ok (if e.op? = some (.binary .ne) then .logicalNot (.logicalNot operand)
        else .logicalNot operand)
    | none => .ok e

def comparisonFamily : List Rule := [selfCompare, negatedCompare, subtractCompare, compareZero]

end Symbolic.Rules
