import Symbolic.Bag

/-! Building expressions: from an operator and children, and by named constructors. -/
namespace Symbolic

/-- Why an expression cannot be built. -/
inductive ExprError
  | invalidArity (op : Operator) (expected : Arity) (found : Nat)
  | unknownOperator (tag : String)
deriving DecidableEq

def ExprError.message : ExprError → String
  | .invalidArity op expected found =>
    "operator `" ++ op.tag ++ "` takes " ++ expected.toText ++ " children, got " ++ toString found
  | .unknownOperator tag => "unknown operator tag `" ++ tag ++ "`"

def Operator.parse (tag : String) : Except ExprError Operator :=
  match ofTag? tag with
  | some op => .ok op
  | none => .error (.unknownOperator tag)

namespace Expr

/-- The operation of an operator on children, if their number fits. -/
def operation : Operator → List Expr → Except ExprError Expr
  | .semigroup op, children => .ok (.nary op (Bag.ofList children))
  | .unary op, [arg] => .ok (.unary op arg)
  | .binary op, [lhs, rhs] => .ok (.binary op lhs rhs)
  | .conditional, [test, whenTrue, whenFalse] => .ok (.conditional test whenTrue whenFalse)
  | .call, callee :: args => .ok (.call callee args)
  | op, children => .error (.invalidArity op op.arity children.length)

/-- The operation of an operator on a multiset, which only semigroup operators take. -/
def ofBag : Operator → Bag → Except ExprError Expr
  | .semigroup op, bag => .ok (.nary op bag)
  | op, bag => .error (.invalidArity op op.arity bag.total)

def pair (op : SemigroupOp) (a b : Expr) : Expr := .nary op (Bag.ofList [a, b])

def add : Expr → Expr → Expr := pair .add
def mul : Expr → Expr → Expr := pair .mul
def bitAnd : Expr → Expr → Expr := pair .bitAnd
def bitOr : Expr → Expr → Expr := pair .bitOr
def bitXor : Expr → Expr → Expr := pair .bitXor
def logicalAnd : Expr → Expr → Expr := pair .and
def logicalOr : Expr → Expr → Expr := pair .or

def neg (a : Expr) : Expr := mul a (int (-1))
def sub (a b : Expr) : Expr := add a (neg b)
def bitNot (a : Expr) : Expr := .unary .bitNot a
def logicalNot (a : Expr) : Expr := .unary .not a

def trueDiv (a b : Expr) : Expr := .binary .trueDiv a b
def floorDiv (a b : Expr) : Expr := .binary .floorDiv a b
def mod (a b : Expr) : Expr := .binary .mod a b
def pow (a b : Expr) : Expr := .binary .pow a b
def shr (a b : Expr) : Expr := .binary .shr a b
def rol (a b : Expr) : Expr := .binary .rol a b
def ror (a b : Expr) : Expr := .binary .ror a b

/-- A left shift is a multiplication by a power of two. -/
def shl (a b : Expr) : Expr := mul a (pow (int 2) b)

def cmpEq (a b : Expr) : Expr := .binary .eq a b
def cmpNe (a b : Expr) : Expr := .binary .ne a b
def cmpLt (a b : Expr) : Expr := .binary .lt a b
def cmpLe (a b : Expr) : Expr := .binary .le a b

/-- Greater is less with the operands swapped. -/
def cmpGt (a b : Expr) : Expr := .binary .lt b a
def cmpGe (a b : Expr) : Expr := .binary .le b a

end Expr
end Symbolic
