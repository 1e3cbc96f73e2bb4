import Symbolic.Expr.Construction
import Symbolic.Rule
import Symbolic.Tree.Basic

/-! Building trees. Some ways check the number of children, others trust their caller; and trees are
built in steps that may stop the process. -/
namespace Symbolic

/-- One rewrite of a tree by a rule. -/
structure Tree.Step where
  rule : String
  before : Tree
  after : Tree
deriving DecidableEq

/-- The failures that a caller is told of. -/
inductive Tree.Failure
  | construction (cause : ExprError)
  | undefinedOperation (op : Operator) (cause : NumericError)
  | nonTerminating (limit : Nat) (recent : List Tree.Step)
  | tooDeep (limit : Nat)
deriving DecidableEq

/-- What ends the process itself. -/
inductive Halt
  /-- A multiplicity, or a sum of them, is beyond a machine word. -/
  | multiplicity
  /-- A count of what a run has done is beyond a machine word. -/
  | counter
  /-- A buffer is larger than any that can be asked for. -/
  | capacity
deriving DecidableEq

/-- How a computation on trees ends without a value. -/
inductive Exit
  | failed (cause : Tree.Failure)
  | halted (cause : Halt)
deriving DecidableEq

/-- A computation on trees. -/
abbrev Attempt := Except Exit

/-- A value that a machine word may be too small for. -/
def Attempt.orHalt {α : Type} (cause : Halt) : Option α → Attempt α
  | some a => .ok a
  | none => .error (.halted cause)

/-- A sum of multiplicities, or a multiset with such sums. -/
abbrev counted {α : Type} (result : Option α) : Attempt α := .orHalt .multiplicity result

namespace Tree

def invalidArity (op : Operator) (found : Nat) : Exit :=
  .failed (.construction (.invalidArity op op.arity found))

/-- The operation of an operator on children, if their number fits. Its class says how they are
kept. -/
def operation (op : Operator) (children : List Tree) : Attempt Tree :=
  if op.arity.accepts children.length then
    match op.operatorClass with
    | .semigroup => do return .multiset op (← counted (Entries.ofList? children))
    | .unary =>
      match children.getLast? with
      | some arg => return .single op arg
      | none => throw (invalidArity op children.length)
    | .binary | .ternary | .variadic => return .ordered op children
  else throw (invalidArity op children.length)

/-- The operation of an operator on a multiset, which only semigroup operators take. -/
def ofMultiset (op : Operator) (terms : Entries Tree) : Attempt Tree :=
  if op.isSemigroup then return .multiset op terms
  else do throw (invalidArity op (← counted (Entries.total? terms)))

/-! The named constructors, which check nothing. -/

def pair (op : SemigroupOp) (lhs rhs : Tree) : Attempt Tree := do
  return .multiset (.semigroup op) (← counted (Entries.ofList? [lhs, rhs]))

def unary (op : UnaryOp) (arg : Tree) : Tree := .single (.unary op) arg

def binary (op : BinaryOp) (lhs rhs : Tree) : Tree := .ordered (.binary op) [lhs, rhs]

def int (value : Int) : Tree := .constant (.int value)

def neg (t : Tree) : Attempt Tree := pair .mul t (int (-1))

def sub (lhs rhs : Tree) : Attempt Tree := do pair .add lhs (← neg rhs)

/-- A left shift is a multiplication by a power of two. -/
def shl (lhs rhs : Tree) : Attempt Tree := pair .mul lhs (binary .pow (int 2) rhs)

/-- Greater is less with the operands swapped. -/
def cmpGt (lhs rhs : Tree) : Tree := binary .lt rhs lhs

def cmpGe (lhs rhs : Tree) : Tree := binary .le rhs lhs

def conditional (test whenTrue whenFalse : Tree) : Tree :=
  .ordered .conditional [test, whenTrue, whenFalse]

def call (callee : Tree) (args : List Tree) : Tree := .ordered .call (callee :: args)

section

variable {m : Type → Type} [Monad m] [MonadLiftT Attempt m] (f : Tree → m Tree)

/-- Inserts the images of keys, each as soon as it is found. -/
def mapTerms : List (Tree × Nat) → Entries Tree → m (Entries Tree)
  | [], mapped => return mapped
  | (t, n) :: rest, mapped => do
    let image ← f t
    let mapped ← liftM (counted (Entries.insertMany? image n mapped))
    mapTerms rest mapped

/-- The operation with every child replaced by its image, up to the first child that has none. Keys
whose images are equal are merged. -/
def mapChildren : Tree → m Tree
  | .multiset op terms => do return .multiset op (← mapTerms f terms [])
  | .single op arg => do return .single op (← f arg)
  | .ordered op children => do return .ordered op (← children.mapM f)
  | t => return t

end

end Tree

/-! Expressions are the trees whose storage is that of their operators' classes. -/
namespace Tree

mutual

def ofExpr : Expr → Tree
  | .constant value => .constant value
  | .symbol name => .symbol name
  | .nary op terms => .multiset (.semigroup op) (ofTerms terms)
  | .unary op arg => .single (.unary op) (ofExpr arg)
  | .binary op lhs rhs => .ordered (.binary op) [ofExpr lhs, ofExpr rhs]
  | .conditional test whenTrue whenFalse =>
    .ordered .conditional [ofExpr test, ofExpr whenTrue, ofExpr whenFalse]
  | .call callee args => .ordered .call (ofExpr callee :: ofArgs args)
termination_by structural e => e

def ofTerms : List (Expr × Nat) → Entries Tree
  | [] => []
  | (e, n) :: rest => (ofExpr e, n) :: ofTerms rest
termination_by structural terms => terms

def ofArgs : List Expr → List Tree
  | [] => []
  | e :: rest => ofExpr e :: ofArgs rest
termination_by structural args => args

end

/-- The expression of an operator on ordered children, if the operator's class has so many. -/
def exprOfList? : Operator → List Expr → Option Expr
  | .binary op, [lhs, rhs] => some (.binary op lhs rhs)
  | .conditional, [test, whenTrue, whenFalse] => some (.conditional test whenTrue whenFalse)
  | .call, callee :: args => some (.call callee args)
  | _, _ => none

mutual

/-- The expression that a tree is, if all its storage fits. -/
def expr? : Tree → Option Expr
  | .constant value => some (.constant value)
  | .symbol name => some (.symbol name)
  | .multiset op terms => do
    let terms ← exprTerms? terms
    match op with
    | .semigroup op => return .nary op terms
    | _ => none
  | .single op arg => do
    let arg ← arg.expr?
    match op with
    | .unary op => return .unary op arg
    | _ => none
  | .ordered op children => do exprOfList? op (← exprs? children)
termination_by structural t => t

def exprTerms? : List (Tree × Nat) → Option (List (Expr × Nat))
  | [] => some []
  | (t, n) :: rest => do return (← t.expr?, n) :: (← exprTerms? rest)
termination_by structural terms => terms

def exprs? : List Tree → Option (List Expr)
  | [] => some []
  | t :: rest => do return (← t.expr?) :: (← exprs? rest)
termination_by structural ts => ts

end

end Tree
end Symbolic
