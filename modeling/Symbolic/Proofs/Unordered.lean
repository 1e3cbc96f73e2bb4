import Symbolic.Proofs.Opposite
import Symbolic.Proofs.Sign

/-! Constants without order: where neither is a NaN a comparison is the negation of the opposite
one, and where one is a NaN neither `<` nor the opposite `<=` holds. -/
namespace Symbolic

attribute [local instance (1100)] instPowNat

namespace Binary64

theorem isNaN_ofInt (v : Int) : (ofInt v).isNaN = false := by
  have hinfinity : infinityMagnitude < 2 ^ (63 : Nat) := by decide
  refine decide_eq_false ?_
  rw [ofInt, ofQuotient, magnitude_ofParts] <;> omega

end Binary64

namespace Number

variable {a b : Number}

def isNaN : Number → Bool
  | .int _ => false
  | .float v => v.isNaN

theorem isNaN_toBinary64 (a : Number) : a.toBinary64.isNaN = a.isNaN := by
  cases a with
  | int v => exact Binary64.isNaN_ofInt v
  | float v => rfl

/-- The numbers without order are those of which one is a NaN, whatever kinds they are of. -/
theorem numericCompare_eq_none_iff :
    a.numericCompare b = none ↔ a.isNaN = true ∨ b.isNaN = true := by
  have floats (x y : Binary64) :
      x.numericCompare y = none ↔ x.isNaN = true ∨ y.isNaN = true := by
    simp only [Binary64.numericCompare]
    split <;> simp_all
  have mixed (h : a.numericCompare b = a.toBinary64.numericCompare b.toBinary64) :
      a.numericCompare b = none ↔ a.isNaN = true ∨ b.isNaN = true := by
    rw [h, floats, isNaN_toBinary64, isNaN_toBinary64]
  cases a with
  | int v =>
    cases b with
    | int w => simp [numericCompare, isNaN]
    | float y => exact mixed rfl
  | float x => exact mixed rfl

end Number

/-- Whether a comparison holds of two numbers in the given order, or in none. -/
def BinaryOp.holds : BinaryOp → Option Ordering → Bool
  | .eq, order => order = some .eq
  | .ne, order => order ≠ some .eq
  | .lt, order => order = some .lt
  | .le, order => order = some .lt || order = some .eq
  | _, _ => false

theorem BinaryOp.eval_comparison {op : BinaryOp} (hop : op.isComparison = true) (a b : Number)
    (wordBits : Nat) : op.eval a b wordBits = .ok (.ofBool (op.holds (a.numericCompare b))) := by
  cases op with
  | eq | ne | lt | le => rfl
  | floorDiv | trueDiv | mod | shr | pow | rol | ror => cases hop

theorem UnaryOp.not_eval_ofBool (holds : Bool) :
    UnaryOp.not.eval (.ofBool holds) = .ok (.ofBool !holds) := by cases holds <;> rfl

namespace Rules

variable {op : BinaryOp}

theorem negatedCompare_of_comparison (hop : op.isComparison = true) (ctx : Context) (l r : Expr) :
    negatedCompare.applies ctx (.logicalNot (.binary op l r)) = true ∧
      negatedCompare.rewrite ctx (.logicalNot (.binary op l r)) = .ok (opposite op l r) := by
  cases op with
  | eq | ne | lt | le => exact ⟨rfl, rfl⟩
  | floorDiv | trueDiv | mod | shr | pow | rol | ror => cases hop

/-- The opposite of a comparison of two constants holds where the comparison does not, unless an
order is asked for that there is not. -/
theorem exists_opposite_constants (hop : op.isComparison = true) (a b : Number) (wordBits : Nat) :
    ∃ x y, opposite op (.constant a) (.constant b) =
        .binary (oppositeOp op) (.constant x) (.constant y) ∧
      (oppositeOp op).eval x y wordBits = .ok (.ofBool
        ((op = .eq ∨ op = .ne ∨ a.numericCompare b ≠ none) && !op.holds (a.numericCompare b))) := by
  cases op with
  | eq | ne => exact ⟨a, b, rfl, by simp [oppositeOp, BinaryOp.eval, BinaryOp.holds]⟩
  | lt | le =>
    refine ⟨b, a, rfl, ?_⟩
    simp only [oppositeOp, BinaryOp.eval, Number.numericCompare_swap a b]
    rcases a.numericCompare b with _ | (_ | _ | _) <;> rfl
  | floorDiv | trueDiv | mod | shr | pow | rol | ror => cases hop

theorem holds_none (hne : op ≠ .ne) : op.holds none = false := by
  cases op <;> first | rfl | contradiction

/-- The negation of a comparison of two constants and what it is rewritten to have the same value if
the comparison is one of equality or neither constant is a NaN, and in no other case: with a NaN the
negation of `<` and of `<=` is 1, and what it is rewritten to is 0. -/
theorem negatedCompare_agrees_iff (hop : op.isComparison = true) (a b : Number) (ctx : Context)
    (wordBits : Nat) :
    ∃ x y negation dual,
      negatedCompare.applies ctx (.logicalNot (.binary op (.constant a) (.constant b))) = true ∧
      negatedCompare.rewrite ctx (.logicalNot (.binary op (.constant a) (.constant b))) =
        .ok (.binary (oppositeOp op) (.constant x) (.constant y)) ∧
      (op.eval a b wordBits).bind UnaryOp.not.eval = .ok negation ∧
      (oppositeOp op).eval x y wordBits = .ok dual ∧
      (negation = dual ↔ op = .eq ∨ op = .ne ∨ (a.isNaN = false ∧ b.isNaN = false)) ∧
      (negation ≠ dual → negation = 1 ∧ dual = 0) := by
  obtain ⟨happlies, hrewrite⟩ := negatedCompare_of_comparison hop ctx (.constant a) (.constant b)
  obtain ⟨x, y, hopposite, hdual⟩ := exists_opposite_constants hop a b wordBits
  have hnegation : (op.eval a b wordBits).bind UnaryOp.not.eval =
      .ok (.ofBool !op.holds (a.numericCompare b)) := by
    rw [BinaryOp.eval_comparison hop]
    exact UnaryOp.not_eval_ofBool _
  have hordered : a.numericCompare b ≠ none ↔ a.isNaN = false ∧ b.isNaN = false := by
    rw [ne_eq, Number.numericCompare_eq_none_iff, not_or, Bool.not_eq_true, Bool.not_eq_true]
  refine ⟨x, y, _, _, happlies, hopposite ▸ hrewrite, hnegation, hdual, ?_⟩
  rw [← hordered]
  by_cases h : op = .eq ∨ op = .ne ∨ a.numericCompare b ≠ none
  · simp [h]
  · obtain ⟨-, hne, hnone⟩ : op ≠ .eq ∧ op ≠ .ne ∧ a.numericCompare b = none := by tauto
    have hholds : op.holds (a.numericCompare b) = false := by rw [hnone, holds_none hne]
    have hzero : Number.ofBool true ≠ Number.ofBool false := by decide
    simp only [hholds, h, decide_false, Bool.false_and, Bool.not_false, hzero]
    exact ⟨trivial, fun _ => ⟨rfl, rfl⟩⟩

/-- The double nearest to `2 ^ 53 + 1` is `2 ^ 53`, so that neither exceeds the other. -/
theorem negatedCompare_agrees_iff_of_mixed_kinds :
    let a := Number.int 9007199254740993
    let b := Number.float (.ofInt 9007199254740992)
    let node := Expr.logicalNot (.binary .le (.constant a) (.constant b))
    BinaryOp.le.isComparison = true ∧ ∃ x y negation,
      negatedCompare.applies ⟨none, {}⟩ node = true ∧
      negatedCompare.rewrite ⟨none, {}⟩ node =
        .ok (.binary (oppositeOp .le) (.constant x) (.constant y)) ∧
      (BinaryOp.le.eval a b 32).bind UnaryOp.not.eval = .ok negation ∧
      (oppositeOp .le).eval x y 32 = .ok negation := by
  intro a b node
  have hop : BinaryOp.le.isComparison = true := rfl
  obtain ⟨x, y, negation, dual, happlies, hrewrite, hnegation, hdual, hiff, _⟩ :=
    negatedCompare_agrees_iff hop a b ⟨none, {}⟩ 32
  have hsame : negation = dual := hiff.mpr (Or.inr (Or.inr ⟨rfl, Binary64.isNaN_ofInt _⟩))
  exact ⟨hop, x, y, negation, happlies, hrewrite, hnegation, hsame ▸ hdual⟩

/-- `!(NaN < 1)` is 1, and `1 <= NaN`, which it is rewritten to, is 0. -/
theorem negatedCompare_of_nan :
    negatedCompare.applies ⟨none, {}⟩
        (.logicalNot (.binary .lt (.constant (.float .nan)) (.constant 1))) = true ∧
      negatedCompare.rewrite ⟨none, {}⟩
        (.logicalNot (.binary .lt (.constant (.float .nan)) (.constant 1))) =
          .ok (.binary .le (.constant 1) (.constant (.float .nan))) ∧
      (BinaryOp.lt.eval (.float .nan) 1 32).bind UnaryOp.not.eval = .ok 1 ∧
      BinaryOp.le.eval 1 (.float .nan) 32 = .ok 0 := by
  refine ⟨rfl, rfl, ?_, ?_⟩ <;> decide +kernel

end Rules
end Symbolic
