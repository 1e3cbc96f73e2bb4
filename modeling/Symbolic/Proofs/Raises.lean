import Symbolic.Proofs.Rewrites

/-! How the default rules fail: only where constants are folded that have no value together. -/
namespace Symbolic

namespace Rules

/-- The failures of the default rules. -/
inductive Raises (width : Nat) : Expr → SimplifyError → Prop
  | foldUnary {op : UnaryOp} {value : Number} {cause : NumericError}
      (h : op.eval value = .error cause) :
      Raises width (.unary op (.constant value)) (.undefinedOperation (.unary op) cause)
  | foldBinary {op : BinaryOp} {lhs rhs : Number} {cause : NumericError}
      (h : op.eval lhs rhs width = .error cause) :
      Raises width (.binary op (.constant lhs) (.constant rhs))
        (.undefinedOperation (.binary op) cause)
  | foldNary {op : SemigroupOp} {terms : Bag} {cause : NumericError}
      (h : accumulateAll op op.identity terms = .error cause) :
      Raises width (.nary op terms) (.undefinedOperation (.semigroup op) cause)

variable {ctx : Context} {e : Expr} {op : Operator} {err : SimplifyError}

theorem folded_eq_error {result : Except NumericError Number} (h : folded op result = .error err) :
    ∃ cause, result = .error cause ∧ err = .undefinedOperation op cause := by
  cases result with
  | error cause =>
    cases h
    exact ⟨cause, rfl, rfl⟩
  | ok value => cases h

/-- A semigroup operation can be built of every multiset. -/
theorem rebuild_ne_error (ha : hasRepeated e = true) (bag : Bag) : rebuild e bag ≠ .error err := by
  cases e with
  | nary op terms => exact nofun
  | constant | symbol | unary | binary | conditional | call => cases ha

theorem raises_foldUnary (ho : e.op? = some op) (hc : foldUnary.trigger.covers op = true)
    (ha : foldUnary.applies ctx e = true) (h : foldUnary.rewrite ctx e = .error err) :
    Raises ctx.config.wordBits e err := by
  cases e with
  | unary op arg =>
    cases ho
    obtain ⟨value, hv⟩ := Option.isSome_iff_exists.mp ha
    obtain rfl : arg = .constant value := by simpa [Expr.ordered] using firstConstant?_eq_some hv
    simp only [foldUnary, Expr.op?, hv] at h
    obtain ⟨cause, hcause, rfl⟩ := folded_eq_error h
    exact .foldUnary hcause
  | constant | symbol => cases ho
  | nary | binary | conditional | call =>
    cases ho
    simp [foldUnary, Trigger.covers, Operator.operatorClass] at hc

theorem raises_foldBinary (ha : foldBinary.applies ctx e = true)
    (h : foldBinary.rewrite ctx e = .error err) : Raises ctx.config.wordBits e err := by
  cases e with
  | binary op lhs rhs =>
    simp only [foldBinary, Bool.and_eq_true, Expr.isConstant_iff] at ha
    obtain ⟨⟨a, rfl⟩, b, rfl⟩ := ha
    obtain ⟨cause, hcause, rfl⟩ := folded_eq_error h
    exact .foldBinary hcause
  | constant | symbol | nary | unary | conditional | call => cases ha

theorem raises_foldNary (ha : foldNary.applies ctx e = true)
    (h : foldNary.rewrite ctx e = .error err) : Raises ctx.config.wordBits e err := by
  cases e with
  | nary op terms =>
    simp only [foldNary] at h
    cases hv : accumulateAll op op.identity terms with
    | error cause =>
      simp only [hv, Except.error.injEq] at h
      subst h
      exact .foldNary hv
    | ok value => simp [hv] at h
  | constant | symbol | unary | binary | conditional | call => cases ha

/-- Where a default rule is offered a node and applies, it fails in no other way. -/
theorem raises_of_mem_all {rule : Rule} (hm : rule ∈ all) (ho : e.op? = some op)
    (hc : rule.trigger.covers op = true) (ha : rule.applies ctx e = true)
    (h : rule.rewrite ctx e = .error err) : Raises ctx.config.wordBits e err := by
  simp only [all, semigroupFamily, foldingFamily, comparisonFamily, factoringFamily,
    List.cons_append, List.nil_append, List.mem_cons, List.not_mem_nil, or_false] at hm
  rcases hm with rfl | rfl | rfl | rfl | rfl | rfl | rfl | rfl | rfl | rfl | rfl | rfl | rfl | rfl |
    rfl
  · cases e <;> cases h
  · exact (rebuild_ne_error ha _ h).elim
  · exact (rebuild_ne_error ha _ h).elim
  · exact raises_foldUnary ho hc ha h
  · exact raises_foldBinary ha h
  · simp only [shortCircuit] at h
    split at h <;> cases h
  · exact raises_foldNary ha h
  · simp only [naryBase] at h
    split at h <;> cases h
  · simp only [constantCondition] at h
    split at h <;> cases h
  · cases h
  · simp only [negatedCompare] at h
    split at h <;> cases h
  · simp only [subtractCompare] at h
    split at h <;> cases h
  · simp only [compareZero] at h
    split at h <;> cases h
  · cases e <;> cases h
  · simp only [distribute] at h
    split at h
    · split at h
      · cases h
      · split at h <;> cases h
    · cases h

end Rules

namespace Engine

open Rules

variable {engine : Engine} {parent : Option Operator} {e : Expr} {err : SimplifyError}

theorem raises_of_rewrite? (hd : engine.registry = .default)
    (h : engine.rewrite? parent e = .error err) : Raises engine.config.wordBits e err := by
  simp only [rewrite?] at h
  cases ho : e.op? with
  | none => simp [ho] at h
  | some op =>
    simp only [ho, hd, Registry.candidates_default] at h
    obtain ⟨rule, hm, ha, hr⟩ := exists_of_firstRewrite_eq_error h
    obtain ⟨hm, hc⟩ := List.mem_filter.mp hm
    exact raises_of_mem_all hm ho hc ha hr

end Engine
end Symbolic
