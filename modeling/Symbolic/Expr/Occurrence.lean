import Symbolic.Expr.Order

/-! The nodes of an expression, each with the operator above it. -/
namespace Symbolic

/-- A node together with the operator above it; a root has none. -/
abbrev Occurrence := Option Operator × Expr

def Occurrence.compare (a b : Occurrence) : Ordering :=
  (Ord.compare (a.1.map Operator.index) (b.1.map Operator.index)).then (Ord.compare a.2 b.2)

namespace Expr

mutual

/-- The node and all nodes below it, each key of a multiset once. -/
def occurrences (parent : Option Operator) : Expr → List Occurrence
  | .constant value => [(parent, .constant value)]
  | .symbol name => [(parent, .symbol name)]
  | .nary op terms =>
    (parent, .nary op terms) :: termOccurrences (some (.semigroup op)) terms
  | .unary op arg => (parent, .unary op arg) :: arg.occurrences (some (.unary op))
  | .binary op lhs rhs =>
    (parent, .binary op lhs rhs) ::
      (lhs.occurrences (some (.binary op)) ++ rhs.occurrences (some (.binary op)))
  | .conditional test whenTrue whenFalse =>
    (parent, .conditional test whenTrue whenFalse) ::
      (test.occurrences (some .conditional) ++
        (whenTrue.occurrences (some .conditional) ++ whenFalse.occurrences (some .conditional)))
  | .call callee args =>
    (parent, .call callee args) ::
      (callee.occurrences (some .call) ++ argOccurrences (some .call) args)
termination_by structural e => e

def termOccurrences (parent : Option Operator) : List (Expr × Nat) → List Occurrence
  | [] => []
  | (e, _) :: rest => e.occurrences parent ++ termOccurrences parent rest
termination_by structural terms => terms

def argOccurrences (parent : Option Operator) : List Expr → List Occurrence
  | [] => []
  | e :: rest => e.occurrences parent ++ argOccurrences parent rest
termination_by structural args => args

end

theorem termOccurrences_eq_flatMap (parent : Option Operator) (terms : List (Expr × Nat)) :
    termOccurrences parent terms = (terms.map Prod.fst).flatMap (occurrences parent) := by
  induction terms with
  | nil => rfl
  | cons entry rest ih => simp [termOccurrences, ih]

theorem argOccurrences_eq_flatMap (parent : Option Operator) (args : List Expr) :
    argOccurrences parent args = args.flatMap (occurrences parent) := by
  induction args with
  | nil => rfl
  | cons e rest ih => simp [argOccurrences, ih]

theorem occurrences_eq_cons (parent : Option Operator) (e : Expr) :
    e.occurrences parent = (parent, e) :: e.children.flatMap (occurrences e.op?) := by
  cases e <;>
    simp [occurrences, children, ordered, op?, termOccurrences_eq_flatMap,
      argOccurrences_eq_flatMap]

theorem size_le_sizeArgs {e : Expr} {args : List Expr} (h : e ∈ args) :
    e.size ≤ sizeArgs args := by
  induction h with
  | head rest => rw [sizeArgs]; omega
  | tail b _ ih => rw [sizeArgs]; omega

theorem size_lt_of_mem_children {child e : Expr} (h : child ∈ e.children) :
    child.size < e.size := by
  have := size_le_sizeArgs h
  rw [size_eq e]
  omega

/-- Induction from the children to the node, whatever its form. -/
theorem induction {motive : Expr → Prop}
    (h : ∀ e, (∀ child ∈ e.children, motive child) → motive e) (e : Expr) : motive e := by
  induction hn : e.size using Nat.strongRecOn generalizing e with
  | ind n ih =>
    subst hn
    exact h e fun child hc => ih child.size (size_lt_of_mem_children hc) child rfl

end Expr
end Symbolic
