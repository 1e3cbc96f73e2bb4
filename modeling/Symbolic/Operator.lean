/-! Operator tags, their classes, their arities and their order. -/
namespace Symbolic

/-- The associative and commutative operators, whose operands form a multiset. -/
inductive SemigroupOp
  | add | mul | bitAnd | bitOr | bitXor | and | or
deriving DecidableEq

inductive UnaryOp
  | bitNot | not
deriving DecidableEq

/-- There is no subtraction, left shift, `>` or `>=`: `a - b` is `a + b * -1`, `a << b` is
`a * 2 ** b`, and `a > b` is `b < a`. -/
inductive BinaryOp
  | floorDiv | trueDiv | mod | shr | pow | rol | ror | eq | ne | lt | le
deriving DecidableEq

inductive Operator
  | semigroup (op : SemigroupOp)
  | unary (op : UnaryOp)
  | binary (op : BinaryOp)
  | conditional
  | call
deriving DecidableEq

inductive OperatorClass
  | semigroup | unary | binary | ternary | variadic
deriving DecidableEq

inductive Arity
  | exactly (count : Nat)
  | atLeast (count : Nat)
deriving DecidableEq

def OperatorClass.name : OperatorClass → String
  | .semigroup => "Semigroup"
  | .unary => "Unary"
  | .binary => "Binary"
  | .ternary => "Ternary"
  | .variadic => "Variadic"

def Arity.accepts : Arity → Nat → Bool
  | .exactly n, count => count = n
  | .atLeast n, count => n ≤ count

def Arity.toText : Arity → String
  | .exactly n => "exactly " ++ toString n
  | .atLeast n => "at least " ++ toString n

def Arity.kind : Arity → String
  | .exactly _ => "Exactly"
  | .atLeast _ => "AtLeast"

def SemigroupOp.tag : SemigroupOp → String
  | .add => "+"
  | .mul => "*"
  | .bitAnd => "&"
  | .bitOr => "|"
  | .bitXor => "^"
  | .and => "&&"
  | .or => "||"

def UnaryOp.tag : UnaryOp → String
  | .bitNot => "~"
  | .not => "!"

def BinaryOp.tag : BinaryOp → String
  | .floorDiv => "//"
  | .trueDiv => "/"
  | .mod => "%"
  | .shr => ">>"
  | .pow => "**"
  | .rol => "rol"
  | .ror => "ror"
  | .eq => "=="
  | .ne => "!="
  | .lt => "<"
  | .le => "<="

def SemigroupOp.name : SemigroupOp → String
  | .add => "Add"
  | .mul => "Mul"
  | .bitAnd => "BitAnd"
  | .bitOr => "BitOr"
  | .bitXor => "BitXor"
  | .and => "And"
  | .or => "Or"

def UnaryOp.name : UnaryOp → String
  | .bitNot => "BitNot"
  | .not => "Not"

def BinaryOp.name : BinaryOp → String
  | .floorDiv => "FloorDiv"
  | .trueDiv => "TrueDiv"
  | .mod => "Mod"
  | .shr => "Shr"
  | .pow => "Pow"
  | .rol => "Rol"
  | .ror => "Ror"
  | .eq => "Eq"
  | .ne => "Ne"
  | .lt => "Lt"
  | .le => "Le"

def BinaryOp.isComparison : BinaryOp → Bool
  | .eq | .ne | .lt | .le => true
  | _ => false

/-- The operators on truth values; every other one is exact on integers. -/
def SemigroupOp.isLogical : SemigroupOp → Bool
  | .and | .or => true
  | _ => false

/-- A tag made of letters stands between spaces when it is written infix. -/
def BinaryOp.isWord : BinaryOp → Bool
  | .rol | .ror => true
  | _ => false

instance : Ord SemigroupOp := ⟨fun a b => compare a.ctorIdx b.ctorIdx⟩
instance : Ord UnaryOp := ⟨fun a b => compare a.ctorIdx b.ctorIdx⟩
instance : Ord BinaryOp := ⟨fun a b => compare a.ctorIdx b.ctorIdx⟩

namespace Operator

/-- All operators, in their order. -/
def all : List Operator :=
  [.semigroup .add, .semigroup .mul, .semigroup .bitAnd, .semigroup .bitOr, .semigroup .bitXor,
    .semigroup .and, .semigroup .or, .unary .bitNot, .unary .not, .binary .floorDiv,
    .binary .trueDiv, .binary .mod, .binary .shr, .binary .pow, .binary .rol, .binary .ror,
    .binary .eq, .binary .ne, .binary .lt, .binary .le, .conditional, .call]

/-- The position in `all`. -/
def index : Operator → Nat
  | .semigroup op => op.ctorIdx
  | .unary op => 7 + op.ctorIdx
  | .binary op => 9 + op.ctorIdx
  | .conditional => 20
  | .call => 21

theorem all_getElem?_index (op : Operator) : all[op.index]? = some op := by
  cases op with
  | semigroup op => cases op <;> rfl
  | unary op => cases op <;> rfl
  | binary op => cases op <;> rfl
  | conditional => rfl
  | call => rfl

instance : Ord Operator := ⟨fun a b => compare a.index b.index⟩

def tag : Operator → String
  | .semigroup op => op.tag
  | .unary op => op.tag
  | .binary op => op.tag
  | .conditional => "?:"
  | .call => "fn"

def name : Operator → String
  | .semigroup op => op.name
  | .unary op => op.name
  | .binary op => op.name
  | .conditional => "Conditional"
  | .call => "Call"

def ofTag? (tag : String) : Option Operator := all.find? fun op => op.tag = tag

def operatorClass : Operator → OperatorClass
  | .semigroup _ => .semigroup
  | .unary _ => .unary
  | .binary _ => .binary
  | .conditional => .ternary
  | .call => .variadic

/-- A semigroup operator takes any number of operands, even none. -/
def arity (op : Operator) : Arity :=
  match op.operatorClass with
  | .semigroup => .atLeast 0
  | .unary => .exactly 1
  | .binary => .exactly 2
  | .ternary => .exactly 3
  | .variadic => .atLeast 1

def isSemigroup (op : Operator) : Bool := op.operatorClass = .semigroup

def isComparison : Operator → Bool
  | .binary op => op.isComparison
  | _ => false

def isLogical : Operator → Bool
  | .semigroup op => op.isLogical
  | _ => false

end Operator
end Symbolic
