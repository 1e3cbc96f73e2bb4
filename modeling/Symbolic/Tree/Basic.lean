import Symbolic.Entries
import Symbolic.Expr.Order

/-! Expressions as they are kept: an operator beside its children, whichever way these are kept.
That the two fit each other is no matter of the type. -/
namespace Symbolic

/-- An expression whose operations have any operator and any of three ways to keep children. -/
inductive Tree
  | constant (value : Number)
  | symbol (name : String)
  | multiset (op : Operator) (terms : List (Tree × Nat))
  | single (op : Operator) (arg : Tree)
  | ordered (op : Operator) (children : List Tree)
deriving Inhabited

theorem Operator.compare_eq_iff (a b : Operator) : compare a b = .eq ↔ a = b := by
  change compare a.index b.index = .eq ↔ a = b
  rw [Std.compare_eq_iff_eq]
  constructor
  · intro h
    have ha := Operator.all_getElem?_index a
    rw [h, Operator.all_getElem?_index b] at ha
    exact (Option.some.inj ha).symm
  · exact congrArg Operator.index

namespace Tree

def constant? : Tree → Option Number
  | .constant value => some value
  | _ => none

def isConstant (t : Tree) : Bool := t.constant?.isSome

def isInt (t : Tree) (value : Int) : Bool := t.constant?.any (·.isInt value)

/-- The operator of an operation; atoms have none. -/
def op? : Tree → Option Operator
  | .constant _ | .symbol _ => none
  | .multiset op _ | .single op _ | .ordered op _ => some op

def isAtomic (t : Tree) : Bool := t.op?.isNone

def isOp (t : Tree) (op : Operator) : Bool := t.op? = some op

def terms? : Tree → Option (Entries Tree)
  | .multiset _ terms => some terms
  | _ => none

/-- The children that have a place. -/
def places : Tree → List Tree
  | .single _ arg => [arg]
  | .ordered _ children => children
  | _ => []

/-- The children, each key of a multiset once. -/
def children : Tree → List Tree
  | .multiset _ terms => Entries.keys terms
  | t => t.places

/-- The two children of an operation whose operator is binary. -/
def operands? (t : Tree) : Option (Tree × Tree) :=
  match t.op?, t.places with
  | some op, [lhs, rhs] => if op.operatorClass = .binary then some (lhs, rhs) else none
  | _, _ => none

mutual

/-- The height of the tree: one for atoms and for operations without children. -/
def depth : Tree → Nat
  | .constant _ | .symbol _ => 1
  | .multiset _ terms => depthTerms terms + 1
  | .single _ arg => arg.depth + 1
  | .ordered _ children => depthList children + 1
termination_by structural t => t

def depthTerms : List (Tree × Nat) → Nat
  | [] => 0
  | (t, _) :: rest => max t.depth (depthTerms rest)
termination_by structural terms => terms

def depthList : List Tree → Nat
  | [] => 0
  | t :: rest => max t.depth (depthList rest)
termination_by structural ts => ts

end

/-! The structural order, which decides equality. -/

/-- Constants come before symbols, and these before operations. -/
def form : Tree → Nat
  | .constant _ => 0
  | .symbol _ => 1
  | .multiset .. | .single .. | .ordered .. => 2

/-- The place of the operator; atoms have none. -/
def opIndex (t : Tree) : Nat := (t.op?.map Operator.index).getD 0

/-- The place of a way to keep children. -/
def storageForm : Tree → Nat
  | .constant _ | .symbol _ | .multiset .. => 0
  | .single .. => 1
  | .ordered .. => 2

mutual

/-- The form first, then the operator, then the way that children are kept, then the children. -/
protected def compare : Tree → Tree → Ordering
  | .constant a, .constant b => compare a b
  | .symbol a, .symbol b => compare a b
  | .multiset op terms, .multiset op' terms' => (compare op op').then (compareTerms terms terms')
  | .single op arg, .single op' arg' => (compare op op').then (arg.compare arg')
  | .ordered op children, .ordered op' children' =>
    (compare op op').then (compareList children children')
  | a, b =>
    (compare a.form b.form).then
      ((compare a.opIndex b.opIndex).then (compare a.storageForm b.storageForm))
termination_by structural t => t

def compareTerms : List (Tree × Nat) → List (Tree × Nat) → Ordering
  | [], [] => .eq
  | [], _ :: _ => .lt
  | _ :: _, [] => .gt
  | (t, n) :: rest, (t', n') :: rest' =>
    (t.compare t').then ((compare n n').then (compareTerms rest rest'))
termination_by structural terms => terms

def compareList : List Tree → List Tree → Ordering
  | [], [] => .eq
  | [], _ :: _ => .lt
  | _ :: _, [] => .gt
  | t :: rest, t' :: rest' => (t.compare t').then (compareList rest rest')
termination_by structural ts => ts

end

instance : Ord Tree := ⟨Tree.compare⟩

mutual

theorem compare_eq_iff (a b : Tree) : a.compare b = .eq ↔ a = b := by
  cases a <;> cases b <;>
    simp [Tree.compare, form, storageForm, Ordering.then_eq_eq, Number.compare_eq_iff,
      Operator.compare_eq_iff, compare_eq_iff _ _, compareTerms_eq_iff _ _, compareList_eq_iff _ _]
termination_by structural a

theorem compareTerms_eq_iff (a b : List (Tree × Nat)) : compareTerms a b = .eq ↔ a = b := by
  match a, b with
  | [], [] => simp [compareTerms]
  | [], _ :: _ => simp [compareTerms]
  | _ :: _, [] => simp [compareTerms]
  | (t, n) :: rest, (t', n') :: rest' =>
    simp [compareTerms, Ordering.then_eq_eq, compare_eq_iff t t', compareTerms_eq_iff rest rest',
      and_assoc]
termination_by structural a

theorem compareList_eq_iff (a b : List Tree) : compareList a b = .eq ↔ a = b := by
  match a, b with
  | [], [] => simp [compareList]
  | [], _ :: _ => simp [compareList]
  | _ :: _, [] => simp [compareList]
  | t :: rest, t' :: rest' =>
    simp [compareList, Ordering.then_eq_eq, compare_eq_iff t t', compareList_eq_iff rest rest']
termination_by structural a

end

/-- Trees at one place in memory are equal without a comparison. -/
instance : DecidableEq Tree := fun a b =>
  withPtrEqDecEq a b fun _ => decidable_of_iff _ (compare_eq_iff a b)

end Tree
end Symbolic
