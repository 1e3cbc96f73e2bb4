import Symbolic.Registry

/-! Structure of semigroup operations: nesting, repetition and cancellation. -/
namespace Symbolic.Rules

/-- The largest multiplicity that a machine word holds. -/
def maxMultiplicity : Nat := wordCount - 1

/-- A product of multiplicities stops at the largest one. A factor already beyond it is not
lowered, so that one occurrence of anything keeps its multiplicity. -/
def scaledCount (n count : Nat) : Nat :=
  if n * count ≤ maxMultiplicity then n * count else max maxMultiplicity (max n count)

/-- The terms of the children that carry the operator itself, each as often as its child. -/
def nestedTerms (op : SemigroupOp) : List (Expr × Nat) → List (Expr × Nat)
  | [] => []
  | (.nary inner terms, count) :: rest =>
    if inner = op then terms.map (fun (e, n) => (e, scaledCount n count)) ++ nestedTerms op rest
    else nestedTerms op rest
  | _ :: rest => nestedTerms op rest

def isNary (op : SemigroupOp) (e : Expr) : Bool := e.op? = some (.semigroup op)

/-- `a + (b + c)` becomes `a + b + c`. -/
def flatten : Rule where
  name := "flatten"
  trigger := .ofClass .semigroup
  applies _
    | .nary op terms => Bag.anyEntry terms fun child _ => isNary op child
    | _ => false
  rewrite _
    | .nary op terms =>
      let rest := (Bag.split terms fun child _ => isNary op child).2
      .ok (.nary op (Bag.merge rest (nestedTerms op terms)))
    | e => .ok e

/-- Whether a child of a semigroup operation occurs more than once. -/
def hasRepeated (e : Expr) : Bool := e.bag?.any fun bag => Bag.anyEntry bag fun _ n => 1 < n

/-- The operation of `op?` on a multiset, for a node whose operator may take none. -/
def rebuild (e : Expr) (bag : Bag) : Except SimplifyError Expr :=
  match e.op? with
  | some op => (Expr.ofBag op bag).mapError .construction
  | none => .ok e

/-- `a & a` becomes `a`. -/
def idempotent : Rule where
  name := "idempotent"
  trigger := .anyOf [.semigroup .bitAnd, .semigroup .bitOr, .semigroup .and, .semigroup .or]
  applies _ := hasRepeated
  rewrite _ e := rebuild e (Bag.ofList (Bag.keys (e.bag?.getD [])))

/-- `a ^ a` vanishes, and one copy is left of a child that occurs an odd number of times. -/
def involution : Rule where
  name := "involution"
  trigger := .operator (.semigroup .bitXor)
  applies _ := hasRepeated
  rewrite _ e :=
    rebuild e (Bag.ofList (((e.bag?.getD []).filter fun entry => entry.2 % 2 = 1).map Prod.fst))

def semigroupFamily : List Rule := [flatten, idempotent, involution]

end Symbolic.Rules
