import Symbolic.Rules.Default
import Symbolic.Tree.Construction

/-! Rules on trees. A rule looks at whatever storage it finds, and builds by ways that may fail. -/
namespace Symbolic.Tree

/-- A rule is two functions of the node and its context, either of which may stop the process. A
rewrite that gives the node back counts as not applying. -/
structure Rule where
  name : String
  trigger : Trigger
  applies : Context → Tree → Attempt Bool
  rewrite : Context → Tree → Attempt Tree

/-- The rules of a list that a node is offered, the first one first. -/
def candidates (rules : List Rule) (op : Operator) : List Rule :=
  rules.filter fun rule => rule.trigger.covers op

namespace Rules

/-! Structure: nesting, repetition and cancellation. -/

/-- The terms of nested operations, each as often as its operation. -/
def nestedTerms (nested : Entries Tree) : Entries Tree :=
  nested.flatMap fun (child, count) =>
    (child.terms?.getD []).map fun (t, n) => (t, Symbolic.Rules.scaledCount n count)

/-- `a + (b + c)` becomes `a + b + c`. -/
def flatten : Rule where
  name := "flatten"
  trigger := .ofClass .semigroup
  applies _
    | .multiset op terms => return Entries.any terms fun child _ => child.isOp op
    | _ => return false
  rewrite _
    | .multiset op terms => do
      let (nested, flat) ← counted (Entries.partition? terms fun child _ => child.isOp op)
      ofMultiset op (← counted (Entries.merge? flat (nestedTerms nested)))
    | t => return t

def hasRepeated (t : Tree) : Bool := t.terms?.any fun terms => Entries.any terms fun _ n => 1 < n

/-- The operation of the node's operator on a multiset of keys, whatever the node is. -/
def collected (t : Tree) (keys : List Tree) : Attempt Tree :=
  match t.op? with
  | some op => do ofMultiset op (← counted (Entries.ofList? keys))
  | none => return t

/-- `a & a` becomes `a`. -/
def idempotent : Rule where
  name := "idempotent"
  trigger := .anyOf [.semigroup .bitAnd, .semigroup .bitOr, .semigroup .and, .semigroup .or]
  applies _ t := return hasRepeated t
  rewrite _ t := collected t (Entries.keys (t.terms?.getD []))

/-- `a ^ a` vanishes, and one copy is left of a child that occurs an odd number of times. -/
def involution : Rule where
  name := "involution"
  trigger := .operator (.semigroup .bitXor)
  applies _ t := return hasRepeated t
  rewrite _ t :=
    collected t (Entries.keys ((t.terms?.getD []).filter fun entry => entry.2 % 2 = 1))

def semigroupFamily : List Rule := [flatten, idempotent, involution]

/-! Constant folding. -/

def undefined (op : Operator) (cause : NumericError) : Exit :=
  .failed (.undefinedOperation op cause)

/-- The result of an evaluation as a tree, or the operator that is undefined there. -/
def folded (op : Operator) (result : Except NumericError Number) : Attempt Tree :=
  (result.mapError (undefined op)).map .constant

/-- The first child that has a place, if it is a constant. -/
def firstConstant? (t : Tree) : Option Number := t.places.head?.bind constant?

def foldUnary : Rule where
  name := "fold-unary"
  trigger := .ofClass .unary
  applies _ t := return (firstConstant? t).isSome
  rewrite _ t :=
    match t.op?, firstConstant? t with
    | some op, some value => folded op (op.evalUnary value)
    | _, _ => return t

def foldBinary : Rule where
  name := "fold-binary"
  trigger := .ofClass .binary
  applies _ t := return t.operands?.any fun (lhs, rhs) => lhs.isConstant && rhs.isConstant
  rewrite ctx t :=
    match t.op?, t.operands?.map fun (lhs, rhs) => (lhs.constant?, rhs.constant?) with
    | some op, some (some lhs, some rhs) => folded op (op.evalBinary lhs rhs ctx.config.wordBits)
    | _, _ => return t

/-- The value of an operation with the given constant operand, whatever the others are. -/
def absorbed? : Operator → Number → Option Number
  | .semigroup .mul, value => if !value.isTruthy then some value else none
  | .semigroup .bitAnd, value => if value.isInt 0 then some 0 else none
  | .semigroup .bitOr, value => if value.isInt (-1) then some (.int (-1)) else none
  | .semigroup .and, value => if !value.isTruthy then some (.ofBool false) else none
  | .semigroup .or, value => if value.isTruthy then some (.ofBool true) else none
  | _, _ => none

/-- The value that the first absorbing child gives. -/
def absorbing? : Tree → Option Number
  | .multiset op terms => ((Entries.keys terms).filterMap constant?).findSome? (absorbed? op)
  | _ => none

/-- `x * 0` becomes `0`. -/
def shortCircuit : Rule where
  name := "short-circuit"
  trigger := .anyOf [.semigroup .mul, .semigroup .bitAnd, .semigroup .bitOr, .semigroup .and,
    .semigroup .or]
  applies _ t := return (absorbing? t).isSome
  rewrite _ t := return ((absorbing? t).map .constant).getD t

/-- The combination of constant entries, from the left. -/
def accumulateAll (op : Operator) (acc : Number) (constants : Entries Tree) : Attempt Number :=
  constants.foldlM
    (fun acc (child, count) =>
      match child.constant? with
      | some value => (op.accumulate acc value count).mapError (undefined op)
      | none => return acc)
    acc

/-- The constant children become one, which is left out if it is the identity. -/
def foldNary : Rule where
  name := "fold-nary"
  trigger := .ofClass .semigroup
  applies _
    | .multiset op terms =>
      match op.identity?, terms.filter fun entry => entry.1.isConstant with
      | none, _ | some _, [] => return false
      | some identity, [(only, count)] =>
        return 1 < count || only.constant? = some identity
      | some _, _ => return true
    | _ => return false
  rewrite _
    | .multiset op terms =>
      match op.identity? with
      | none => return .multiset op terms
      | some identity => do
        let (constants, rest) ← counted (Entries.partition? terms fun child _ => child.isConstant)
        let value ← accumulateAll op identity constants
        if value = identity then ofMultiset op rest
        else ofMultiset op (← counted (Entries.insert? (.constant value) rest))
    | t => return t

/-- An operation without children is its identity, and one with a single child is that child. -/
def naryBase : Rule where
  name := "nary-base"
  trigger := .ofClass .semigroup
  applies _ t :=
    return t.terms?.any fun terms =>
      terms.isEmpty || (Entries.single? terms).any fun entry => entry.2 = 1
  rewrite _
    | .multiset op terms =>
      match Entries.single? terms with
      | some (child, 1) => return child
      | some _ => return .multiset op terms
      | none => return (op.identity?.map .constant).getD (.multiset op terms)
    | t => return t

/-- A conditional with a constant condition is one of its branches. -/
def constantCondition : Rule where
  name := "constant-condition"
  trigger := .operator .conditional
  applies _ t := return (firstConstant? t).isSome
  rewrite _ t :=
    match firstConstant? t with
    | some test => return (t.places[if test.isTruthy then 1 else 2]?).getD t
    | none => return t

def foldingFamily : List Rule :=
  [foldUnary, foldBinary, shortCircuit, foldNary, naryBase, constantCondition]

/-! Comparisons. -/

/-- `x == x` is true and `x < x` is false. -/
def selfCompare : Rule where
  name := "self-compare"
  trigger := .anyOf Symbolic.Rules.comparisons
  applies _ t := return t.operands?.any fun (lhs, rhs) => lhs = rhs
  rewrite _ t := return .constant (.ofBool (t.isOp (.binary .eq) || t.isOp (.binary .le)))

/-- The comparison that holds when the given one does not, and whether its operands swap. -/
def dual? : Operator → Option (Operator × Bool)
  | .binary .eq => some (.binary .ne, false)
  | .binary .ne => some (.binary .eq, false)
  | .binary .lt => some (.binary .le, true)
  | .binary .le => some (.binary .lt, true)
  | _ => none

/-- `!(a < b)` becomes `b <= a`. -/
def negatedCompare : Rule where
  name := "negated-compare"
  trigger := .operator (.unary .not)
  applies _ t := return (t.places.head?.bind op?).any Operator.isComparison
  rewrite _ t :=
    match t.places.head? with
    | none => return t
    | some inner =>
      match inner.op?.bind dual?, inner.operands? with
      | some (op, swaps), some (lhs, rhs) => operation op (if swaps then [rhs, lhs] else [lhs, rhs])
      | _, _ => return t

/-- The first negative constant that occurs once in a product. -/
def negativeCoefficient? (terms : Entries Tree) : Option (Tree × Number) :=
  terms.findSome? fun (child, count) =>
    (child.constant?.filter fun value => count = 1 && value.isNegative).map fun value =>
      (child, value)

/-- The negation of a negative constant, or of a product with a negative coefficient. -/
def negatedTerm? : Tree → Attempt (Option Tree)
  | .constant value => return if value.isNegative then some (.constant value.negate) else none
  | .multiset (.semigroup .mul) terms =>
    match negativeCoefficient? terms with
    | none => return none
    | some (coefficient, value) => do
      let rest := Entries.removeOne coefficient terms
      let rest ← counted (Entries.insert? (.constant value.negate) rest)
      match ofMultiset (.semigroup .mul) rest with
      | .error (.failed _) => return none
      | result => result.map some
  | _ => return none

/-- A difference that is compared with zero. -/
structure Difference where
  positive : Entries Tree
  /-- The negative terms, negated. -/
  negative : Entries Tree
  zeroOnLeft : Bool

/-- The terms of a sum, or a single term. A sum that keeps no multiset has none. -/
def summands? : Tree → Option (Entries Tree)
  | .multiset (.semigroup .add) terms => some terms
  | t => if t.isOp (.semigroup .add) then none else some [(t, 1)]

/-- One entry more: its image, if it has one, and else itself, each in a multiset of its own. -/
def dealt (image? : Tree → Attempt (Option Tree)) (parts : Entries Tree × Entries Tree)
    (entry : Tree × Nat) : Attempt (Entries Tree × Entries Tree) := do
  match ← image? entry.1 with
  | some image => return (← counted (Entries.insertMany? image entry.2 parts.1), parts.2)
  | none => return (parts.1, ← counted (Entries.insertMany? entry.1 entry.2 parts.2))

/-- The sum that a comparison has against an integer zero, if it has negative terms. -/
def difference? (t : Tree) : Attempt (Option Difference) :=
  match t.operands? with
  | none => return none
  | some (lhs, rhs) =>
    let side := if rhs.isInt 0 then some (lhs, false)
      else if lhs.isInt 0 then some (rhs, true) else none
    let difference := side.bind fun (sum, zeroOnLeft) =>
      (summands? sum).map fun terms => (terms, zeroOnLeft)
    match difference with
    | none => return none
    | some (terms, zeroOnLeft) => do
      let (negative, positive) ← terms.foldlM (dealt negatedTerm?) ([], [])
      return if negative.isEmpty then none else some ⟨positive, negative, zeroOnLeft⟩

/-- `a + -1 * b < 0` becomes `a < b`. -/
def subtractCompare : Rule where
  name := "subtract-compare"
  trigger := .anyOf Symbolic.Rules.comparisons
  applies _ t := do return (← difference? t).isSome
  rewrite _ t := do
    match t.op?, ← difference? t with
    | some op, some d =>
      let positive ← ofMultiset (.semigroup .add) d.positive
      let negative ← ofMultiset (.semigroup .add) d.negative
      operation op (if d.zeroOnLeft then [negative, positive] else [positive, negative])
    | _, _ => return t

/-- The operand that is compared with an integer zero. -/
def comparedWithZero? (t : Tree) : Option Tree :=
  t.operands?.bind fun (lhs, rhs) =>
    if rhs.isInt 0 then some lhs else if lhs.isInt 0 then some rhs else none

/-- `a == 0` becomes `!a`, and `a != 0` becomes `!!a`. -/
def compareZero : Rule where
  name := "compare-zero"
  trigger := .anyOf [.binary .eq, .binary .ne]
  applies _ t := return (comparedWithZero? t).isSome
  rewrite _ t :=
    match comparedWithZero? t with
    | some operand =>
      return if t.isOp (.binary .ne) then unary .not (unary .not operand) else unary .not operand
    | none => return t

def comparisonFamily : List Rule := [selfCompare, negatedCompare, subtractCompare, compareZero]

/-! Repeated terms and common factors. -/

/-- One entry more, with several copies of it as one product or power. Constants are left to
folding. -/
def grouped (op : Operator) (terms : Entries Tree) (entry : Tree × Nat) : Attempt (Entries Tree) :=
  if entry.2 = 1 || entry.1.isConstant then counted (Entries.insertMany? entry.1 entry.2 terms)
  else do
    let inner : Operator := if op = .semigroup .mul then .binary .pow else .semigroup .mul
    counted (Entries.insert? (← operation inner [entry.1, int entry.2]) terms)

/-- `x + x` becomes `x * 2`, and `x * x` becomes `x ** 2`. -/
def repetition : Rule where
  name := "repetition"
  trigger := .anyOf [.semigroup .add, .semigroup .mul]
  applies _ t :=
    return t.terms?.any fun terms => Entries.any terms fun child n => 1 < n && !child.isConstant
  rewrite _
    | .multiset op terms => do ofMultiset op (← terms.foldlM (grouped op) [])
    | t => return t

/-- The operator whose common factors `op` can pull out. -/
def innerOf? : Operator → Option Operator
  | .semigroup .add => some (.semigroup .mul)
  | .semigroup .bitOr => some (.semigroup .bitAnd)
  | .semigroup .bitAnd => some (.semigroup .bitOr)
  | .semigroup .or => some (.semigroup .and)
  | .semigroup .and => some (.semigroup .or)
  | _ => none

/-- The terms of an operation of a given operator, if it keeps a multiset. -/
def termsOf? (op : Operator) : Tree → Option (Entries Tree)
  | .multiset op' terms => if op' = op then some terms else none
  | _ => none

/-- The distinct factors of a term that are no constants. A term that is no product is its own
only factor. -/
def factors (inner : Operator) (term : Tree) : List Tree :=
  match termsOf? inner term with
  | some terms => (Entries.keys terms).filter fun factor => !factor.isConstant
  | none => if term.isConstant then [] else [term]

/-- The first entry with the greatest count, among those with a count of two or more. -/
def mostCommon? (counts : Entries Tree) : Option (Tree × Nat) :=
  counts.foldl
    (fun best entry =>
      if 2 ≤ entry.2 && best.all (fun b => b.2 < entry.2) then some entry else best)
    none

/-- The factor that most terms share, if two share one. Of equally common factors the least is
taken. -/
def commonFactor? (inner : Operator) (terms : Entries Tree) : Attempt (Option Tree) := do
  let counts ← counted (Entries.ofList? ((Entries.keys terms).flatMap (factors inner)))
  return (mostCommon? counts).map Prod.fst

/-- A term without one occurrence of a factor, if the factor occurs in it. -/
def cofactor? (inner : Operator) (factor term : Tree) : Attempt (Option Tree) :=
  if term = factor then return some (← ofMultiset inner [])
  else
    match termsOf? inner term with
    | some terms => do
      if Entries.contains factor terms then
        return some (← ofMultiset inner (Entries.removeOne factor terms))
      else return none
    | none => return none

/-- The terms that share the factor are replaced by its product with the rest of them. -/
def factored (op inner : Operator) (factor : Tree) (terms : Entries Tree) : Attempt Tree := do
  let (cofactors, rest) ← terms.foldlM (dealt (cofactor? inner factor)) ([], [])
  let group ← ofMultiset op cofactors
  let product ← ofMultiset inner (← counted (Entries.ofList? [factor, group]))
  ofMultiset op (← counted (Entries.insert? product rest))

/-- `a * b + a * c` becomes `a * (b + c)`. A term that is no product counts as itself times the
identity, so that `a | (a & b)` becomes `a & (-1 | b)`. -/
def distribute : Rule where
  name := "distribute"
  trigger := .anyOf [.semigroup .add, .semigroup .bitOr, .semigroup .bitAnd, .semigroup .or,
    .semigroup .and]
  applies _
    | .multiset op terms =>
      match innerOf? op with
      | none => return false
      | some inner => do return (← commonFactor? inner terms).isSome
    | _ => return false
  rewrite _
    | .multiset op terms =>
      match innerOf? op with
      | none => return .multiset op terms
      | some inner => do
        match ← commonFactor? inner terms with
        | none => return .multiset op terms
        | some factor => factored op inner factor terms
    | t => return t

def factoringFamily : List Rule := [repetition, distribute]

/-- The default rules. -/
def all : List Rule := semigroupFamily ++ foldingFamily ++ comparisonFamily ++ factoringFamily

end Rules
end Symbolic.Tree
