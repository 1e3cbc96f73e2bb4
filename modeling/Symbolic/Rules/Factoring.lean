import Symbolic.Registry

/-! Repeated terms become products and powers, and common factors are pulled out of sums. -/
namespace Symbolic.Rules

/-- `count` copies of a child under `op`, as one child. -/
def grouped (op : SemigroupOp) (child : Expr) (count : Nat) : Expr :=
  match op with
  | .mul => .pow child (.int count)
  | _ => .mul child (.int count)

/-- `x + x` becomes `x * 2`, and `x * x` becomes `x ** 2`. Constants are left to folding. -/
def repetition : Rule where
  name := "repetition"
  trigger := .anyOf [.semigroup .add, .semigroup .mul]
  applies _ e := e.bag?.any fun bag => Bag.anyEntry bag fun child n => 1 < n && !child.isConstant
  rewrite _
    | .nary op terms =>
      .ok (.nary op (Bag.ofEntries (terms.map fun (child, count) =>
        if count = 1 || child.isConstant then (child, count) else (grouped op child count, 1))))
    | e => .ok e

/-- The operator whose common factors `op` can pull out. -/
def innerOf? : SemigroupOp → Option SemigroupOp
  | .add => some .mul
  | .bitOr => some .bitAnd
  | .bitAnd => some .bitOr
  | .or => some .and
  | .and => some .or
  | .mul | .bitXor => none

/-- The distinct factors of a term that are no constants. A term that is no product is its own
only factor. -/
def factors (inner : SemigroupOp) : Expr → List Expr
  | .constant _ => []
  | .nary op terms =>
    if op = inner then (Bag.keys terms).filter fun factor => !factor.isConstant
    else [.nary op terms]
  | term => [term]

/-- In how many terms each factor occurs. -/
def factorCounts (inner : SemigroupOp) (terms : Bag) : Bag :=
  Bag.ofList ((Bag.keys terms).flatMap (factors inner))

/-- The first entry with the greatest count, among those with a count of two or more. -/
def mostCommon? (counts : Bag) : Option (Expr × Nat) :=
  counts.foldl
    (fun best entry =>
      if 2 ≤ entry.2 && best.all (fun b => b.2 < entry.2) then some entry else best)
    none

/-- The factor that most terms share, if two share one. Of equally common factors the least is
taken. -/
def commonFactor? (inner : SemigroupOp) (terms : Bag) : Option Expr :=
  (mostCommon? (factorCounts inner terms)).map Prod.fst

/-- A term without one occurrence of a factor, if the factor occurs in it. -/
def cofactor? (inner : SemigroupOp) (factor term : Expr) : Option Expr :=
  if term = factor then some (.nary inner [])
  else match term with
    | .nary op terms =>
      if op = inner && Bag.contains factor terms then some
        (.nary inner (Bag.removeOne factor terms))
      else none
    | _ => none

/-- The terms that share the factor are replaced by its product with the rest of them. -/
def factored (op inner : SemigroupOp) (factor : Expr) (terms : Bag) : Expr :=
  let cofactors := Bag.ofEntries (terms.filterMap fun (term, count) =>
    (cofactor? inner factor term).map fun cofactor => (cofactor, count))
  let rest := terms.filter fun entry => (cofactor? inner factor entry.1).isNone
  .nary op (Bag.insert (.pair inner factor (.nary op cofactors)) rest)

/-- `a * b + a * c` becomes `a * (b + c)`. A term that is no product counts as itself times the
identity, so that `a | (a & b)` becomes `a & (-1 | b)`. -/
def distribute : Rule where
  name := "distribute"
  trigger := .anyOf [.semigroup .add, .semigroup .bitOr, .semigroup .bitAnd, .semigroup .or,
    .semigroup .and]
  applies _
    | .nary op terms => ((innerOf? op).bind fun inner => commonFactor? inner terms).isSome
    | _ => false
  rewrite _
    | .nary op terms =>
      match innerOf? op with
      | none => .ok (.nary op terms)
      | some inner =>
        match commonFactor? inner terms with
        | none => .ok (.nary op terms)
        | some factor => .ok (factored op inner factor terms)
    | e => .ok e

def factoringFamily : List Rule := [repetition, distribute]

end Symbolic.Rules
