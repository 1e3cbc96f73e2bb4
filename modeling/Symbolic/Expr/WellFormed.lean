import Symbolic.Bag
import Symbolic.Expr.Occurrence

/-! The one form that a multiset has, at every node of an expression. -/
namespace Symbolic

/-- Keys strictly increase, and each occurs. -/
def Bag.Canonical (bag : Bag) : Prop :=
  bag.Pairwise (fun a b => compare a.1 b.1 = .lt) ∧ ∀ entry ∈ bag, 1 ≤ entry.2

instance (bag : Bag) : Decidable bag.Canonical := inferInstanceAs (Decidable (_ ∧ _))

namespace Expr

/-- Every multiset in the expression is canonical. All else that an operator asks of its children
is in the type. -/
def WellFormed (e : Expr) : Prop :=
  ∀ occurrence ∈ e.occurrences none, ∀ bag ∈ occurrence.2.bag?, Bag.Canonical bag

instance (e : Expr) : Decidable e.WellFormed :=
  inferInstanceAs (Decidable (∀ occurrence ∈ e.occurrences none,
    ∀ bag ∈ occurrence.2.bag?, Bag.Canonical bag))

end Expr
end Symbolic
