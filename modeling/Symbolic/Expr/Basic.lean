import Symbolic.Evaluation

/-! Expressions, and what a node shows of itself. -/
namespace Symbolic

/-- A symbolic expression. The operands of a semigroup operator have no order, only a multiplicity
each; every other operator keeps its operands in place. -/
inductive Expr
  | constant (value : Number)
  | symbol (name : String)
  | nary (op : SemigroupOp) (terms : List (Expr × Nat))
  | unary (op : UnaryOp) (arg : Expr)
  | binary (op : BinaryOp) (lhs rhs : Expr)
  | conditional (test whenTrue whenFalse : Expr)
  | call (callee : Expr) (args : List Expr)
deriving Inhabited

/-- A multiset of expressions: distinct keys in increasing order, each with its multiplicity. -/
abbrev Bag := List (Expr × Nat)

namespace Expr

def int (value : Int) : Expr := .constant (.int value)

def constant? : Expr → Option Number
  | .constant value => some value
  | _ => none

def symbol? : Expr → Option String
  | .symbol name => some name
  | _ => none

/-- The operator of an operation; atoms have none. -/
def op? : Expr → Option Operator
  | .constant _ | .symbol _ => none
  | .nary op _ => some (.semigroup op)
  | .unary op _ => some (.unary op)
  | .binary op _ _ => some (.binary op)
  | .conditional .. => some .conditional
  | .call .. => some .call

def isConstant (e : Expr) : Bool := e.constant?.isSome

/-- Constants and symbols. -/
def isAtomic (e : Expr) : Bool := e.op?.isNone

def isInt (e : Expr) (value : Int) : Bool := e.constant?.any (·.isInt value)

def bag? : Expr → Option Bag
  | .nary _ terms => some terms
  | _ => none

/-- The children that have a place; a semigroup operation has none. -/
def ordered : Expr → List Expr
  | .unary _ arg => [arg]
  | .binary _ lhs rhs => [lhs, rhs]
  | .conditional test whenTrue whenFalse => [test, whenTrue, whenFalse]
  | .call callee args => callee :: args
  | _ => []

/-- The children, each key of a multiset once. -/
def children : Expr → List Expr
  | .nary _ terms => terms.map Prod.fst
  | e => e.ordered

/-- The operands of a binary operator. -/
def operands? : Expr → Option (Expr × Expr)
  | .binary _ lhs rhs => some (lhs, rhs)
  | _ => none

mutual

/-- The number of nodes, each key of a multiset counted once. -/
def size : Expr → Nat
  | .constant _ | .symbol _ => 1
  | .nary _ terms => 1 + sizeTerms terms
  | .unary _ arg => 1 + arg.size
  | .binary _ lhs rhs => 1 + (lhs.size + rhs.size)
  | .conditional test whenTrue whenFalse => 1 + (test.size + (whenTrue.size + whenFalse.size))
  | .call callee args => 1 + (callee.size + sizeArgs args)
termination_by structural e => e

def sizeTerms : List (Expr × Nat) → Nat
  | [] => 0
  | (e, _) :: rest => e.size + sizeTerms rest
termination_by structural terms => terms

def sizeArgs : List Expr → Nat
  | [] => 0
  | e :: rest => e.size + sizeArgs rest
termination_by structural args => args

end

mutual

/-- The height of the tree: one for atoms and for operations without children. -/
def depth : Expr → Nat
  | .constant _ | .symbol _ => 1
  | .nary _ terms => depthTerms terms + 1
  | .unary _ arg => arg.depth + 1
  | .binary _ lhs rhs => max lhs.depth rhs.depth + 1
  | .conditional test whenTrue whenFalse =>
    max test.depth (max whenTrue.depth whenFalse.depth) + 1
  | .call callee args => max callee.depth (depthArgs args) + 1
termination_by structural e => e

def depthTerms : List (Expr × Nat) → Nat
  | [] => 0
  | (e, _) :: rest => max e.depth (depthTerms rest)
termination_by structural terms => terms

def depthArgs : List Expr → Nat
  | [] => 0
  | e :: rest => max e.depth (depthArgs rest)
termination_by structural args => args

end

theorem sizeTerms_eq (terms : List (Expr × Nat)) :
    sizeTerms terms = sizeArgs (terms.map Prod.fst) := by
  induction terms with
  | nil => rfl
  | cons entry rest ih => rw [List.map_cons, sizeTerms, sizeArgs, ih]

/-- Whatever the form of a node, only its children count. -/
theorem size_eq (e : Expr) : e.size = 1 + sizeArgs e.children := by
  cases e <;> simp [size, children, ordered, sizeArgs, sizeTerms_eq]

theorem depthTerms_eq (terms : List (Expr × Nat)) :
    depthTerms terms = depthArgs (terms.map Prod.fst) := by
  induction terms with
  | nil => rfl
  | cons entry rest ih => rw [List.map_cons, depthTerms, depthArgs, ih]

theorem depth_eq (e : Expr) : e.depth = depthArgs e.children + 1 := by
  cases e <;> simp [depth, children, ordered, depthArgs, depthTerms_eq]

end Expr
end Symbolic
