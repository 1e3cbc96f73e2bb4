import Symbolic.Expr.Construction

/-! Replacing the children of a node. -/
namespace Symbolic.Expr

/-- The node with the given expressions in the places of `children`. Keys of a multiset that become
equal are merged, and their multiplicities are added. -/
def withChildren : Expr → List Expr → Expr
  | .nary op terms, children => .nary op (Bag.ofEntries (children.zip (terms.map Prod.snd)))
  | .unary op _, [arg] => .unary op arg
  | .binary op _ _, [lhs, rhs] => .binary op lhs rhs
  | .conditional .., [test, whenTrue, whenFalse] => .conditional test whenTrue whenFalse
  | .call .., callee :: args => .call callee args
  | e, _ => e

/-- The images of the children in their order, or the first error met. -/
def mapAll {ε : Type} (f : Expr → Except ε Expr) : List Expr → Except ε (List Expr)
  | [] => .ok []
  | e :: rest =>
    match f e with
    | .error err => .error err
    | .ok image =>
      match mapAll f rest with
      | .error err => .error err
      | .ok images => .ok (image :: images)

/-- The node with every child replaced by its image. -/
def mapChildren {ε : Type} (f : Expr → Except ε Expr) (e : Expr) : Except ε Expr :=
  (mapAll f e.children).map e.withChildren

end Symbolic.Expr
