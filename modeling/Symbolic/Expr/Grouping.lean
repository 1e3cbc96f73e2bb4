import Mathlib.Algebra.Order.Group.Multiset
import Mathlib.Data.Finset.Card
import Mathlib.Data.Finset.Lattice.Basic
import Symbolic.Expr.Construction
import Symbolic.Expr.Leaves

/-! What is left of the operands of nested products and nested conjunctions where these are grouped:
all that tells one way of nesting them from another. -/
namespace Symbolic.Expr

/-- `n` equal factors become the power `n` of one of them. -/
def gathered (factors : Multiset Expr) : Multiset Expr :=
  factors.dedup.map fun x =>
    if factors.count x = 1 then x else .pow x (.int (factors.count x))

/-- Factors are gathered until no two are equal: a power may meet its own like. -/
def distinct (factors : Multiset Expr) : Multiset Expr := gathered^[factors.card] factors

mutual

/-- The factors of nested products. Each product gathers those of its operands, as often as the
operands occur, but does not look into the powers that an inner product has made. -/
def powers : Expr → Multiset Expr
  | .constant _ => 0
  | .nary _ terms => distinct (powersTerms terms)
  | e => {e}
termination_by structural e => e

def powersTerms : List (Expr × Nat) → Multiset Expr
  | [] => 0
  | (e, count) :: rest => count • e.powers + powersTerms rest
termination_by structural terms => terms

end

mutual

/-- The integers that nested conjunctions keep. Each keeps the only one that its operands keep, and
one if they keep several or none; beside a symbol a one is dropped. -/
def kept : Expr → Finset Int
  | .constant (.int v) => {v}
  | .nary op terms =>
    let folded := if (keptTerms terms).card = 1 then keptTerms terms else {1}
    if (nary op terms).leaves.all isConstant then folded else folded.erase 1
  | _ => ∅
termination_by structural e => e

def keptTerms : List (Expr × Nat) → Finset Int
  | [] => ∅
  | (e, _) :: rest => e.kept ∪ keptTerms rest
termination_by structural terms => terms

end

end Symbolic.Expr
