import Symbolic.Proofs.Reduced

/-! A comparison and the opposite one, which holds where it does not: a rule rewrites both or none,
and what they become is opposite again. -/
namespace Symbolic

theorem Number.numericCompare_swap (a b : Number) :
    b.numericCompare a = (a.numericCompare b).map Ordering.swap := by
  have floats (x y : Binary64) : y.numericCompare x = (x.numericCompare y).map Ordering.swap := by
    simp only [Binary64.numericCompare, Bool.or_comm y.isNaN]
    split
    · rfl
    · rw [Option.map_some, ← Std.OrientedOrd.eq_swap]
  cases a with
  | int a =>
    cases b with
    | int b => exact congrArg some Std.OrientedOrd.eq_swap
    | float y => exact floats _ _
  | float x => cases b <;> exact floats _ _

namespace Rules

open Symbolic.Expr

variable {op : BinaryOp} {l r x e : Expr} {ctx : Context}

/-- The comparison that holds where the given one does not. -/
def opposite (op : BinaryOp) (lhs rhs : Expr) : Expr :=
  (negatedComparison? lhs rhs op).getD (.binary op lhs rhs)

/-- The operator of the opposite comparison. -/
def oppositeOp : BinaryOp → BinaryOp
  | .eq => .ne
  | .ne => .eq
  | .lt => .le
  | .le => .lt
  | op => op

/-- What two comparisons over the same operands become, of which one holds where the other does
not. -/
inductive Opposed (op : BinaryOp) (l r : Expr) : Expr → Expr → Prop
  | decided (holds : Bool) :
      Opposed op l r (.constant (.ofBool holds)) (.constant (.ofBool !holds))
  | unordered {c d : Number} (hop : op = .lt ∨ op = .le) (hl : l = .constant c)
      (hr : r = .constant d)
      (h : c.numericCompare d = none) : Opposed op l r (.constant 0) (.constant 0)
  | moved (positive negative : Expr) :
      Opposed op l r (.binary op positive negative) (opposite op positive negative)
  | equalsZero {x : Expr} (hop : op = .eq) (hx : AgainstZero x l r) :
      Opposed op l r (.logicalNot x) (.logicalNot (.logicalNot x))
  | differsFromZero {x : Expr} (hop : op = .ne) (hx : AgainstZero x l r) :
      Opposed op l r (.logicalNot (.logicalNot x)) (.logicalNot x)

theorem negatedComparison?_eq (hop : op.isComparison = true) :
    negatedComparison? l r op = some (opposite op l r) := by
  cases op with
  | eq | ne | lt | le => rfl
  | floorDiv | trueDiv | mod | shr | pow | rol | ror => cases hop

/-- The opposite of the opposite is the comparison itself. -/
theorem exists_opposite_opposite (hop : op.isComparison = true) :
    ∃ op' l' r', opposite op l r = .binary op' l' r' ∧ op'.isComparison = true ∧
      opposite op' l' r' = .binary op l r := by
  cases op with
  | eq | ne | lt | le => exact ⟨_, _, _, rfl, rfl, rfl⟩
  | floorDiv | trueDiv | mod | shr | pow | rol | ror => cases hop

theorem op?_opposite : (opposite op l r).op? = some (.binary (oppositeOp op)) := by cases op <;> rfl

theorem mem_children_opposite :
    e ∈ (opposite op l r).children ↔ e ∈ (Expr.binary op l r).children := by
  cases op <;> simp [opposite, negatedComparison?, children, ordered, or_comm]

theorem wellFormed_opposite (hw : (Expr.binary op l r).WellFormed) :
    (opposite op l r).WellFormed := by
  refine wellFormed_iff.mpr ⟨?_, fun c hm => hw.of_mem_children (mem_children_opposite.mp hm)⟩
  cases op <;> exact fun _ hb => nomatch hb

theorem rebuilt_binary (f : Expr → Expr) :
    (Expr.binary op l r).rebuilt f = .binary op (f l) (f r) := by
  have hcanonical : ∀ bag ∈ (Expr.binary op l r).bag?, Bag.Canonical bag := fun _ hb => nomatch hb
  rw [rebuilt_eq_withChildren hcanonical]
  rfl

theorem rebuilt_opposite (f : Expr → Expr) :
    (opposite op l r).rebuilt f = opposite op (f l) (f r) := by
  cases op <;> exact rebuilt_binary f

theorem isSome_difference?_iff : (difference? (.binary op l r)).isSome = true ↔
    ∃ sum, AgainstZero sum l r ∧ negativeTerms (summands sum) ≠ [] := by
  constructor
  · intro h
    obtain ⟨d, hd⟩ := Option.isSome_iff_exists.mp h
    obtain ⟨sum, _, _, hne, ⟨hl, hr, _⟩ | ⟨hl, hr, _⟩⟩ := difference?_eq_some hd
    · exact ⟨sum, Or.inl ⟨hl, hr⟩, hne⟩
    · exact ⟨sum, Or.inr ⟨hl, hr⟩, hne⟩
  · rintro ⟨sum, hz, hne⟩
    exact isSome_difference? hz hne

theorem againstZero_comm : AgainstZero x l r ↔ AgainstZero x r l := by
  simp only [AgainstZero, and_comm, or_comm]

/-- The rules that are offered a comparison. -/
def comparisonRules (op : BinaryOp) : List Rule :=
  if op = .eq ∨ op = .ne then [foldBinary, selfCompare, subtractCompare, compareZero]
  else [foldBinary, selfCompare, subtractCompare]

theorem mem_comparisonRules {rule : Rule} (hm : rule ∈ comparisonRules op) :
    rule = foldBinary ∨ rule = selfCompare ∨ rule = subtractCompare ∨
      (rule = compareZero ∧ (op = .eq ∨ op = .ne)) := by
  simp only [comparisonRules] at hm
  split at hm
  · next hop =>
    simp only [List.mem_cons, List.not_mem_nil, or_false] at hm
    tauto
  · simp only [List.mem_cons, List.not_mem_nil, or_false] at hm
    tauto

/-- A rule applies to both comparisons or to none. -/
theorem applies_opposite {rule : Rule} (hm : rule ∈ comparisonRules op) :
    rule.applies ctx (opposite op l r) = rule.applies ctx (.binary op l r) := by
  rw [Bool.eq_iff_iff]
  cases op with
  | lt | le =>
    obtain rfl | rfl | rfl | ⟨_, hop⟩ := mem_comparisonRules hm
    · simp [foldBinary, opposite, negatedComparison?, and_comm]
    · simp [selfCompare, opposite, negatedComparison?, operands?, eq_comm]
    · simp only [subtractCompare, opposite, negatedComparison?, Option.getD_some,
        isSome_difference?_iff, againstZero_comm (l := l)]
    · simp at hop
  | eq | ne | floorDiv | trueDiv | mod | shr | pow | rol | ror =>
    obtain rfl | rfl | rfl | ⟨rfl, _⟩ := mem_comparisonRules hm <;> exact Iff.rfl

theorem opposed_folded (hop : op.isComparison = true) (c d : Number) :
    ∃ after after', foldBinary.rewrite ctx (.binary op (.constant c) (.constant d)) = .ok after ∧
      foldBinary.rewrite ctx (opposite op (.constant c) (.constant d)) = .ok after' ∧
      Opposed op (.constant c) (.constant d) after after' := by
  cases op with
  | eq =>
    refine ⟨_, _, rfl, rfl, ?_⟩
    simp only [ne_eq, decide_not]
    exact .decided _
  | ne =>
    refine ⟨_, _, rfl, rfl, ?_⟩
    have hflip : decide (c.numericCompare d = some .eq) =
        !decide (c.numericCompare d ≠ some .eq) := by
      simp
    rw [hflip]
    exact .decided _
  | lt | le =>
    refine ⟨_, _, rfl, rfl, ?_⟩
    rw [Number.numericCompare_swap c d]
    cases hc : c.numericCompare d with
    | none => exact .unordered (by simp) rfl rfl hc
    | some order => cases order <;> exact .decided _
  | floorDiv | trueDiv | mod | shr | pow | rol | ror => cases hop

theorem opposed_self (hop : op.isComparison = true) :
    ∃ after after', selfCompare.rewrite ctx (.binary op x x) = .ok after ∧
      selfCompare.rewrite ctx (opposite op x x) = .ok after' ∧ Opposed op x x after after' := by
  cases op with
  | eq | ne | lt | le => exact ⟨_, _, rfl, rfl, .decided _⟩
  | floorDiv | trueDiv | mod | shr | pow | rol | ror => cases hop

theorem difference?_right (h : negativeTerms (summands x) ≠ []) :
    difference? (.binary op x (.int 0)) =
      some ⟨positiveTerms (summands x), negativeTerms (summands x), false⟩ := by
  simp [difference?, operands?, isInt_iff.mpr rfl, h]

theorem difference?_left (h : negativeTerms (summands x) ≠ []) :
    difference? (.binary op (.int 0) x) =
      some ⟨positiveTerms (summands x), negativeTerms (summands x), true⟩ := by
  have hx : x.isInt 0 = false := by
    rw [← Bool.not_eq_true, isInt_iff]
    rintro rfl
    exact h rfl
  simp [difference?, operands?, isInt_iff.mpr rfl, hx, h]

theorem opposed_moved (hop : op.isComparison = true)
    (ha : subtractCompare.applies ctx (.binary op l r) = true) :
    ∃ after after', subtractCompare.rewrite ctx (.binary op l r) = .ok after ∧
      subtractCompare.rewrite ctx (opposite op l r) = .ok after' ∧ Opposed op l r after after' := by
  obtain ⟨sum, hz, hne⟩ := isSome_difference?_iff.mp ha
  let positive := Expr.nary .add (positiveTerms (summands sum))
  let negative := Expr.nary .add (negativeTerms (summands sum))
  rcases hz with ⟨rfl, rfl⟩ | ⟨rfl, rfl⟩
  · refine ⟨_, _, ?_, ?_, .moved positive negative⟩
    · simp [subtractCompare, difference?_right hne, positive, negative]
    · cases op with
      | eq | ne | lt | le =>
        simp [subtractCompare, opposite, negatedComparison?, difference?_left hne,
          difference?_right hne, positive, negative]
      | floorDiv | trueDiv | mod | shr | pow | rol | ror => cases hop
  · refine ⟨_, _, ?_, ?_, .moved negative positive⟩
    · simp [subtractCompare, difference?_left hne, positive, negative]
    · cases op with
      | eq | ne | lt | le =>
        simp [subtractCompare, opposite, negatedComparison?, difference?_left hne,
          difference?_right hne, positive, negative]
      | floorDiv | trueDiv | mod | shr | pow | rol | ror => cases hop

theorem opposed_zero (hop : op = .eq ∨ op = .ne)
    (ha : compareZero.applies ctx (.binary op l r) = true) :
    ∃ after after', compareZero.rewrite ctx (.binary op l r) = .ok after ∧
      compareZero.rewrite ctx (opposite op l r) = .ok after' ∧ Opposed op l r after after' := by
  obtain ⟨x, hx⟩ := Option.isSome_iff_exists.mp ha
  have hzero := comparedWithZero?_eq_some hx
  have hagain (other : BinaryOp) : comparedWithZero? (.binary other l r) = some x := hx
  rcases hop with rfl | rfl
  · refine ⟨_, _, ?_, ?_, .equalsZero rfl hzero⟩
    · simp [compareZero, hagain, op?]
    · simp [compareZero, hagain, op?, opposite, negatedComparison?]
  · refine ⟨_, _, ?_, ?_, .differsFromZero rfl hzero⟩
    · simp [compareZero, hagain, op?]
    · simp [compareZero, hagain, op?, opposite, negatedComparison?]

/-- A rule that applies to a comparison rewrites both. -/
theorem exists_opposed {rule : Rule} (hop : op.isComparison = true) (hm : rule ∈ comparisonRules op)
    (ha : rule.applies ctx (.binary op l r) = true) :
    ∃ after after', rule.rewrite ctx (.binary op l r) = .ok after ∧
      rule.rewrite ctx (opposite op l r) = .ok after' ∧ Opposed op l r after after' := by
  obtain rfl | rfl | rfl | ⟨rfl, hzero⟩ := mem_comparisonRules hm
  · simp only [foldBinary, Bool.and_eq_true, isConstant_iff] at ha
    obtain ⟨⟨c, rfl⟩, d, rfl⟩ := ha
    exact opposed_folded hop c d
  · obtain rfl : l = r := by simpa [selfCompare, operands?] using ha
    exact opposed_self hop
  · exact opposed_moved hop ha
  · exact opposed_zero hzero ha

end Rules

end Symbolic
