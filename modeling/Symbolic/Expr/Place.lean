import Symbolic.Expr.Basic

/-! The places of an expression where only the truth of a value counts. -/
namespace Symbolic

/-- What counts at a place: the value itself, or only whether it is zero. -/
inductive Place
  | value | truth
deriving DecidableEq

/-- The place of the operands. -/
def SemigroupOp.place (op : SemigroupOp) : Place := if op.isLogical then .truth else .value

def UnaryOp.place : UnaryOp → Place
  | .bitNot => .value
  | .not => .truth

namespace Place

/-- The second value is as good as the first one, as far as the place asks. -/
def Agrees : Place → Int → Int → Prop
  | .value, v, w => w = v
  | .truth, v, w => w = 0 ↔ v = 0

variable {place : Place} {u v w : Int}

theorem Agrees.refl (place : Place) (v : Int) : place.Agrees v v := by cases place <;> simp [Agrees]

theorem Agrees.trans (h : place.Agrees u v) (h' : place.Agrees v w) : place.Agrees u w := by
  cases place with
  | value => exact Eq.trans h' h
  | truth => exact Iff.trans h' h

end Place

namespace Expr

mutual

/-- `&&` and `||` stand only where truth counts, if the expression itself is at the given place:
there, as operands of `&&`, `||` and `!`, as conditions, and as branches where the conditional may
be one. -/
def keepsPlaces (place : Place) : Expr → Bool
  | .constant _ | .symbol _ => true
  | .nary op terms => (!op.isLogical || place = .truth) && termsKeepPlaces op.place terms
  | .unary op arg => arg.keepsPlaces op.place
  | .binary _ lhs rhs => lhs.keepsPlaces .value && rhs.keepsPlaces .value
  | .conditional test whenTrue whenFalse =>
    test.keepsPlaces .truth && (whenTrue.keepsPlaces place && whenFalse.keepsPlaces place)
  | .call callee args => callee.keepsPlaces .value && argsKeepPlaces args
termination_by structural e => e

def termsKeepPlaces (place : Place) : List (Expr × Nat) → Bool
  | [] => true
  | (e, _) :: rest => e.keepsPlaces place && termsKeepPlaces place rest
termination_by structural terms => terms

def argsKeepPlaces : List Expr → Bool
  | [] => true
  | e :: rest => e.keepsPlaces .value && argsKeepPlaces rest
termination_by structural args => args

end

end Expr
end Symbolic
