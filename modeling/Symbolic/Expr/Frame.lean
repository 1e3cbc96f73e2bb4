import Symbolic.Expr.WellFormed

/-! Expressions with a hole. -/
namespace Symbolic

/-- A node with a hole in the place of one child, or of all copies of one key of a multiset. -/
inductive Frame
  | nary (op : SemigroupOp) (others : Bag) (count : Nat)
  | unary (op : UnaryOp)
  | left (op : BinaryOp) (rhs : Expr)
  | right (op : BinaryOp) (lhs : Expr)
  | condition (whenTrue whenFalse : Expr)
  | thenBranch (test whenFalse : Expr)
  | elseBranch (test whenTrue : Expr)
  | function (args : List Expr)
  | argument (callee : Expr) (before after : List Expr)

/-- The node with an expression in the hole. In a multiset it meets the copies that are there. -/
def Frame.plug : Frame → Expr → Expr
  | .nary op others count, e => .nary op (Bag.insertMany e count others)
  | .unary op, e => .unary op e
  | .left op rhs, e => .binary op e rhs
  | .right op lhs, e => .binary op lhs e
  | .condition whenTrue whenFalse, e => .conditional e whenTrue whenFalse
  | .thenBranch test whenFalse, e => .conditional test e whenFalse
  | .elseBranch test whenTrue, e => .conditional test whenTrue e
  | .function args, e => .call e args
  | .argument callee before after, e => .call callee (before ++ e :: after)

/-- The operator of the node. -/
def Frame.op : Frame → Operator
  | .nary op _ _ => .semigroup op
  | .unary op => .unary op
  | .left op _ | .right op _ => .binary op
  | .condition .. | .thenBranch .. | .elseBranch .. => .conditional
  | .function _ | .argument .. => .call

/-- The children of the node beside the hole. -/
def Frame.siblings : Frame → List Expr
  | .nary _ others _ => Bag.keys others
  | .unary _ => []
  | .left _ rhs => [rhs]
  | .right _ lhs => [lhs]
  | .condition whenTrue whenFalse => [whenTrue, whenFalse]
  | .thenBranch test whenFalse => [test, whenFalse]
  | .elseBranch test whenTrue => [test, whenTrue]
  | .function args => args
  | .argument callee before after => callee :: (before ++ after)

/-- A multiset beside the hole has the one form that a multiset has. -/
def Frame.Canonical : Frame → Prop
  | .nary _ others _ => Bag.Canonical others
  | _ => True

instance : DecidablePred Frame.Canonical
  | .nary _ others _ => inferInstanceAs (Decidable (Bag.Canonical others))
  | .unary _ | .left .. | .right .. | .condition .. | .thenBranch .. | .elseBranch .. | .function _
  | .argument .. => isTrue trivial

/-- An expression inside frames, the innermost first. -/
def Expr.inside (e : Expr) (frames : List Frame) : Expr :=
  frames.foldl (fun e frame => frame.plug e) e

end Symbolic
