import Symbolic.Expr.Occurrence

/-! The leaves of nested semigroup operations. -/
namespace Symbolic.Expr

mutual

/-- What stands under nested semigroup operations, as often as the multiplicities on the way down to
it multiply to. -/
def leaves : Expr → List Expr
  | .nary _ terms => leavesTerms terms
  | e => [e]
termination_by structural e => e

def leavesTerms : List (Expr × Nat) → List Expr
  | [] => []
  | (e, count) :: rest => (List.replicate count e.leaves).flatten ++ leavesTerms rest
termination_by structural terms => terms

end

/-- An integer, a symbol, or an operation of the operator. -/
def isNodeOf (op : SemigroupOp) : Expr → Bool
  | .constant (.int _) | .symbol _ => true
  | .nary op' _ => op' = op
  | _ => false

/-- All operations in the expression are of one operator, over integers and symbols. -/
def Nests (op : SemigroupOp) (e : Expr) : Prop :=
  ∀ occurrence ∈ e.occurrences none, occurrence.2.isNodeOf op = true

instance (op : SemigroupOp) (e : Expr) : Decidable (e.Nests op) :=
  inferInstanceAs (Decidable (∀ occurrence ∈ e.occurrences none, occurrence.2.isNodeOf op = true))

end Symbolic.Expr
