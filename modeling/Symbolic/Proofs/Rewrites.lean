import Symbolic.Proofs.FirstRewrite
import Symbolic.Proofs.Registry

/-! What the default rules do, once for all: every rewrite of a run is one of these. -/
namespace Symbolic

namespace Expr

theorem isInt_iff {e : Expr} {v : Int} : e.isInt v = true ↔ e = .int v := by
  cases e with
  | constant value =>
    cases value with
    | int w => simp [isInt, constant?, Number.isInt, int]
    | float x => simp [isInt, constant?, Number.isInt, int]
  | symbol | nary | unary | binary | conditional | call => simp [isInt, constant?, int]

theorem isConstant_iff {e : Expr} : e.isConstant = true ↔ ∃ value, e = .constant value := by
  cases e <;> simp [isConstant, constant?]

theorem eq_constant_of_constant? {e : Expr} {value : Number} (h : e.constant? = some value) :
    e = .constant value := by
  cases e <;> cases h
  rfl

end Expr

namespace Rules

/-- One side of a comparison is an integer zero, the other one is the operand. -/
def AgainstZero (operand lhs rhs : Expr) : Prop :=
  (lhs = operand ∧ rhs = .int 0) ∨ (lhs = .int 0 ∧ rhs = operand)

/-- The rewrites of the default rules. Constants are folded only where none absorbs the others,
since that rule comes first. -/
inductive Rewrites (width : Nat) : Expr → Expr → Prop
  | flatten {op : SemigroupOp} {terms : Bag} (h : ∃ entry ∈ terms, isNary op entry.1 = true) :
      Rewrites width (.nary op terms) (.nary op
        (Bag.merge (terms.filter fun entry => !isNary op entry.1) (nestedTerms op terms)))
  | idempotent {op : SemigroupOp} {terms : Bag}
      (hop : op = .bitAnd ∨ op = .bitOr ∨ op = .and ∨ op = .or) (h : ∃ entry ∈ terms, 1 < entry.2) :
      Rewrites width (.nary op terms) (.nary op (Bag.ofList (Bag.keys terms)))
  | involution {terms : Bag} (h : ∃ entry ∈ terms, 1 < entry.2) :
      Rewrites width (.nary .bitXor terms) (.nary .bitXor
        (Bag.ofList (Bag.keys (terms.filter fun entry => entry.2 % 2 = 1))))
  | foldUnary {op : UnaryOp} {value result : Number} (h : op.eval value = .ok result) :
      Rewrites width (.unary op (.constant value)) (.constant result)
  | foldBinary {op : BinaryOp} {lhs rhs result : Number} (h : op.eval lhs rhs width = .ok result) :
      Rewrites width (.binary op (.constant lhs) (.constant rhs)) (.constant result)
  | shortCircuit {op : SemigroupOp} {terms : Bag} {value : Number}
      (h : absorbing? (.nary op terms) = some value) :
      Rewrites width (.nary op terms) (.constant value)
  | foldNary {op : SemigroupOp} {terms : Bag} {value : Number} (hne : constantEntries terms ≠ [])
      (hone : ∀ only count, constantEntries terms = [(only, count)] →
        1 < count ∨ only = .constant op.identity)
      (hab : absorbing? (.nary op terms) = none)
      (h : accumulateAll op op.identity terms = .ok value) :
      Rewrites width (.nary op terms) (.nary op
        (if value = op.identity then terms.filter fun entry => !entry.1.isConstant
        else Bag.insert (.constant value) (terms.filter fun entry => !entry.1.isConstant)))
  | empty {op : SemigroupOp} : Rewrites width (.nary op []) (.constant op.identity)
  | single {op : SemigroupOp} {child : Expr} : Rewrites width (.nary op [(child, 1)]) child
  | constantCondition {test : Number} {whenTrue whenFalse : Expr} :
      Rewrites width (.conditional (.constant test) whenTrue whenFalse)
        (if test.isTruthy then whenTrue else whenFalse)
  | selfCompare {op : BinaryOp} {x : Expr} (hop : op.isComparison = true) :
      Rewrites width (.binary op x x) (.constant (.ofBool (op = .eq || op = .le)))
  | negatedCompare {op : BinaryOp} {lhs rhs e : Expr} (h : negatedComparison? lhs rhs op = some e) :
      Rewrites width (.unary .not (.binary op lhs rhs)) e
  | subtractRight {op : BinaryOp} {sum : Expr} (hop : op.isComparison = true)
      (h : negativeTerms (summands sum) ≠ []) :
      Rewrites width (.binary op sum (.int 0)) (.binary op
        (.nary .add (positiveTerms (summands sum))) (.nary .add (negativeTerms (summands sum))))
  | subtractLeft {op : BinaryOp} {sum : Expr} (hop : op.isComparison = true)
      (h : negativeTerms (summands sum) ≠ []) :
      Rewrites width (.binary op (.int 0) sum) (.binary op
        (.nary .add (negativeTerms (summands sum))) (.nary .add (positiveTerms (summands sum))))
  | equalsZero {operand lhs rhs : Expr} (h : AgainstZero operand lhs rhs) :
      Rewrites width (.binary .eq lhs rhs) (.logicalNot operand)
  | differsFromZero {operand lhs rhs : Expr} (h : AgainstZero operand lhs rhs) :
      Rewrites width (.binary .ne lhs rhs) (.logicalNot (.logicalNot operand))
  | repetition {op : SemigroupOp} {terms : Bag} (hop : op = .add ∨ op = .mul)
      (h : ∃ entry ∈ terms, 1 < entry.2 ∧ entry.1.isConstant = false) :
      Rewrites width (.nary op terms) (.nary op (Bag.ofEntries (terms.map fun entry =>
        if entry.2 = 1 || entry.1.isConstant then entry else (grouped op entry.1 entry.2, 1))))
  | distribute {op inner : SemigroupOp} {factor : Expr} {terms : Bag}
      (hi : innerOf? op = some inner) (hf : commonFactor? inner terms = some factor) :
      Rewrites width (.nary op terms) (factored op inner factor terms)

/-- Where a rule is offered a node and applies, its result is one of the relation. -/
def Described (rule : Rule) : Prop :=
  ∀ (ctx : Context) (op : Operator) (e e' : Expr), e.op? = some op → rule.trigger.covers op = true →
    rule.applies ctx e = true → rule.rewrite ctx e = .ok e' → Rewrites ctx.config.wordBits e e'

theorem described_flatten : Described flatten := by
  intro ctx op e e' _ _ ha hr
  cases e with
  | nary op terms =>
    simp only [flatten, Bag.anyEntry, List.any_eq_true] at ha
    simp only [flatten, Bag.split, List.partition_eq_filter_filter, Except.ok.injEq] at hr
    subst hr
    exact .flatten ha
  | constant | symbol | unary | binary | conditional | call => cases ha

theorem isNary_iff {op : SemigroupOp} {e : Expr} :
    isNary op e = true ↔ ∃ terms, e = .nary op terms := by
  cases e <;> simp [isNary, Expr.op?]

theorem nestedTerms_cons_nary (op : SemigroupOp) (terms : Bag) (count : Nat)
    (rest : List (Expr × Nat)) :
    nestedTerms op ((.nary op terms, count) :: rest) =
      (terms.map fun entry => (entry.1, scaledCount entry.2 count)) ++ nestedTerms op rest := by
  rw [nestedTerms, if_pos rfl]

theorem nestedTerms_cons_other {op : SemigroupOp} {e : Expr} (h : isNary op e = false) (count : Nat)
    (rest : List (Expr × Nat)) : nestedTerms op ((e, count) :: rest) = nestedTerms op rest := by
  cases e with
  | nary inner terms =>
    rw [nestedTerms, if_neg]
    rintro rfl
    simp [isNary, Expr.op?] at h
  | constant | symbol | unary | binary | conditional | call => rfl

theorem exists_of_hasRepeated (op : SemigroupOp) {terms : Bag}
    (h : hasRepeated (.nary op terms) = true) : ∃ entry ∈ terms, 1 < entry.2 := by
  simpa [hasRepeated, Expr.bag?, Bag.anyEntry] using h

theorem described_idempotent : Described idempotent := by
  intro ctx op e e' ho hc ha hr
  cases e with
  | nary op terms =>
    cases ho
    simp only [idempotent, rebuild, Expr.op?, Expr.ofBag, Except.mapError, Expr.bag?,
      Option.getD_some, Except.ok.injEq] at hr
    subst hr
    refine .idempotent ?_ (exists_of_hasRepeated op ha)
    cases op <;> simp [idempotent, Trigger.covers] at hc ⊢
  | constant | symbol | unary | binary | conditional | call =>
    simp [idempotent, hasRepeated, Expr.bag?] at ha

theorem described_involution : Described involution := by
  intro ctx op e e' ho hc ha hr
  cases e with
  | nary op terms =>
    cases ho
    obtain rfl : SemigroupOp.bitXor = op := by simpa [involution, Trigger.covers] using hc
    simp only [involution, rebuild, Expr.op?, Expr.ofBag, Except.mapError, Expr.bag?,
      Option.getD_some, Except.ok.injEq] at hr
    subst hr
    exact .involution (exists_of_hasRepeated .bitXor ha)
  | constant | symbol | unary | binary | conditional | call =>
    simp [involution, hasRepeated, Expr.bag?] at ha

theorem folded_eq_ok {op : Operator} {result : Except NumericError Number} {e : Expr}
    (h : folded op result = .ok e) : ∃ value, result = .ok value ∧ e = .constant value := by
  cases result with
  | error cause => cases h
  | ok value =>
    cases h
    exact ⟨value, rfl, rfl⟩

theorem firstConstant?_eq_some {e : Expr} {value : Number} (h : firstConstant? e = some value) :
    e.ordered.head? = some (.constant value) := by
  simp only [firstConstant?, Option.bind_eq_some_iff] at h
  obtain ⟨first, hf, hv⟩ := h
  rw [hf, Expr.eq_constant_of_constant? hv]

theorem described_foldUnary : Described foldUnary := by
  intro ctx op e e' ho hc ha hr
  cases e with
  | unary op arg =>
    cases ho
    obtain ⟨value, hv⟩ := Option.isSome_iff_exists.mp ha
    obtain rfl : arg = .constant value := by simpa [Expr.ordered] using firstConstant?_eq_some hv
    simp only [foldUnary, Expr.op?, hv] at hr
    obtain ⟨result, hresult, rfl⟩ := folded_eq_ok hr
    exact .foldUnary hresult
  | constant | symbol => cases ho
  | nary | binary | conditional | call =>
    cases ho
    simp [foldUnary, Trigger.covers, Operator.operatorClass] at hc

theorem described_foldBinary : Described foldBinary := by
  intro ctx op e e' _ _ ha hr
  cases e with
  | binary op lhs rhs =>
    simp only [foldBinary, Bool.and_eq_true, Expr.isConstant_iff] at ha
    obtain ⟨⟨a, rfl⟩, b, rfl⟩ := ha
    obtain ⟨result, hresult, rfl⟩ := folded_eq_ok hr
    exact .foldBinary hresult
  | constant | symbol | nary | unary | conditional | call => cases ha

theorem exists_of_absorbing? {op : SemigroupOp} {terms : Bag} {value : Number}
    (h : absorbing? (.nary op terms) = some value) :
    ∃ z, .constant z ∈ Bag.keys terms ∧ absorbed? op z = some value := by
  obtain ⟨entry, hm, hv⟩ := List.exists_of_findSome?_eq_some h
  obtain ⟨z, hz, habsorbed⟩ := Option.bind_eq_some_iff.mp hv
  exact ⟨z, Expr.eq_constant_of_constant? hz ▸ List.mem_map_of_mem hm, habsorbed⟩

theorem described_shortCircuit : Described shortCircuit := by
  intro ctx op e e' _ _ ha hr
  obtain ⟨value, hv⟩ := Option.isSome_iff_exists.mp ha
  simp only [shortCircuit, hv, Except.ok.injEq] at hr
  subst hr
  cases e with
  | nary op terms => exact .shortCircuit hv
  | constant | symbol | unary | binary | conditional | call => cases hv

theorem rewrites_foldNary {ctx : Context} {e e' : Expr} (ha : foldNary.applies ctx e = true)
    (hr : foldNary.rewrite ctx e = .ok e') (hab : absorbing? e = none) :
    Rewrites ctx.config.wordBits e e' := by
  cases e with
  | nary op terms =>
    simp only [foldNary] at ha hr
    cases hv : accumulateAll op op.identity terms with
    | error cause => simp [hv] at hr
    | ok value =>
      simp only [hv, Except.ok.injEq] at hr
      subst hr
      refine .foldNary ?_ ?_ hab hv
      · intro hnil
        simp [hnil] at ha
      · intro only count hone
        simpa [hone] using ha
  | constant | symbol | unary | binary | conditional | call => cases ha

theorem described_naryBase : Described naryBase := by
  intro ctx op e e' _ _ ha hr
  cases e with
  | nary op terms =>
    match terms with
    | [] =>
      cases hr
      exact .empty
    | [(child, 1)] =>
      cases hr
      exact .single
    | [(_, 0)] | [(_, _ + 2)] | _ :: _ :: _ => simp [naryBase] at ha
  | constant | symbol | unary | binary | conditional | call => cases ha

theorem described_constantCondition : Described constantCondition := by
  intro ctx op e e' ho hc ha hr
  obtain ⟨value, hv⟩ := Option.isSome_iff_exists.mp ha
  cases e with
  | conditional test whenTrue whenFalse =>
    obtain rfl : test = .constant value := by simpa [Expr.ordered] using firstConstant?_eq_some hv
    simp only [constantCondition, hv, Except.ok.injEq] at hr
    subst hr
    have htaken (e : Expr) : ([.constant value, whenTrue, whenFalse][if value.isTruthy then 1
        else 2]?).getD e = if value.isTruthy then whenTrue else whenFalse := by
      cases value.isTruthy <;> rfl
    rw [Expr.ordered, htaken]
    exact .constantCondition
  | constant | symbol => cases ho
  | nary | unary | binary | call =>
    cases ho
    simp [constantCondition, Trigger.covers] at hc

theorem described_selfCompare : Described selfCompare := by
  intro ctx op e e' ho hc ha hr
  cases e with
  | binary op lhs rhs =>
    cases ho
    obtain rfl : lhs = rhs := by simpa [selfCompare, Expr.operands?] using ha
    simp only [selfCompare, Expr.op?, Option.some.injEq, Operator.binary.injEq,
      Except.ok.injEq] at hr
    subst hr
    refine .selfCompare ?_
    cases op <;> simp [selfCompare, comparisons, Trigger.covers] at hc <;> rfl
  | constant | symbol | nary | unary | conditional | call =>
    simp [selfCompare, Expr.operands?] at ha

theorem described_negatedCompare : Described negatedCompare := by
  intro ctx op e e' ho hc ha hr
  cases e with
  | unary op arg =>
    cases ho
    obtain rfl : UnaryOp.not = op := by simpa [negatedCompare, Trigger.covers] using hc
    cases arg with
    | binary op lhs rhs =>
      have hop : op.isComparison = true := by
        simpa [negatedCompare, Expr.ordered, Expr.op?, Operator.isComparison] using ha
      simp only [negatedCompare, Expr.ordered, List.head?_cons, Except.ok.injEq] at hr
      obtain ⟨e, he⟩ : ∃ e, negatedComparison? lhs rhs op = some e := by
        cases op <;> first | exact ⟨_, rfl⟩ | cases hop
      rw [he, Option.getD_some] at hr
      subst hr
      exact .negatedCompare he
    | constant | symbol | nary | unary | conditional | call =>
      simp [negatedCompare, Expr.ordered, Expr.op?, Operator.isComparison] at ha
  | constant | symbol => cases ho
  | nary | binary | conditional | call =>
    cases ho
    simp [negatedCompare, Trigger.covers] at hc

theorem difference?_eq_some {lhs rhs : Expr} {op : BinaryOp} {d : Difference}
    (h : difference? (.binary op lhs rhs) = some d) :
    ∃ sum, d.positive = positiveTerms (summands sum) ∧ d.negative = negativeTerms (summands sum) ∧
      negativeTerms (summands sum) ≠ [] ∧
      ((lhs = sum ∧ rhs = .int 0 ∧ d.zeroOnLeft = false) ∨
        (lhs = .int 0 ∧ rhs = sum ∧ d.zeroOnLeft = true)) := by
  simp only [difference?, Expr.operands?, Option.bind_eq_some_iff] at h
  obtain ⟨⟨sum, zeroOnLeft⟩, hside, h⟩ := h
  split at h
  · cases h
  · next hne =>
    cases h
    refine ⟨sum, rfl, rfl, by simpa [List.isEmpty_iff] using hne, ?_⟩
    split at hside
    · next hz =>
      cases hside
      exact Or.inl ⟨rfl, Expr.isInt_iff.mp hz, rfl⟩
    · split at hside
      · next hz =>
        cases hside
        exact Or.inr ⟨Expr.isInt_iff.mp hz, rfl, rfl⟩
      · cases hside

theorem described_subtractCompare : Described subtractCompare := by
  intro ctx op e e' ho hc ha hr
  obtain ⟨d, hd⟩ := Option.isSome_iff_exists.mp ha
  cases e with
  | binary op lhs rhs =>
    cases ho
    have hop : op.isComparison = true := by
      cases op <;> simp [subtractCompare, comparisons, Trigger.covers] at hc <;> rfl
    simp only [subtractCompare, hd, Except.ok.injEq] at hr
    obtain ⟨sum, hp, hn, hne, ⟨rfl, rfl, hz⟩ | ⟨rfl, rfl, hz⟩⟩ := difference?_eq_some hd
    · simp only [hp, hn, hz, Bool.false_eq_true, if_false] at hr
      subst hr
      exact .subtractRight hop hne
    · simp only [hp, hn, hz, if_true] at hr
      subst hr
      exact .subtractLeft hop hne
  | constant | symbol | nary | unary | conditional | call =>
    simp [difference?, Expr.operands?] at hd

theorem comparedWithZero?_eq_some {lhs rhs operand : Expr} {op : BinaryOp}
    (h : comparedWithZero? (.binary op lhs rhs) = some operand) : AgainstZero operand lhs rhs := by
  simp only [comparedWithZero?, Expr.operands?, Option.bind_some] at h
  split at h
  · next hz =>
    cases h
    exact Or.inl ⟨rfl, Expr.isInt_iff.mp hz⟩
  · split at h
    · next hz =>
      cases h
      exact Or.inr ⟨Expr.isInt_iff.mp hz, rfl⟩
    · cases h

theorem described_compareZero : Described compareZero := by
  intro ctx op e e' ho hc ha hr
  obtain ⟨operand, hz⟩ := Option.isSome_iff_exists.mp ha
  cases e with
  | binary op lhs rhs =>
    cases ho
    have hagainst := comparedWithZero?_eq_some hz
    simp only [compareZero, hz, Except.ok.injEq] at hr
    subst hr
    cases op <;> simp [compareZero, Trigger.covers] at hc
    · exact .equalsZero hagainst
    · exact .differsFromZero hagainst
  | constant | symbol | nary | unary | conditional | call =>
    simp [comparedWithZero?, Expr.operands?] at hz

theorem negativeTerms_eq (terms : Bag) :
    negativeTerms terms = Bag.ofEntries (terms.filterMap fun entry =>
      (negatedTerm? entry.1).map fun flipped => (flipped, entry.2)) := rfl

theorem negativeCoefficient?_eq_some {terms : List (Expr × Nat)} {value : Number}
    (h : negativeCoefficient? terms = some value) :
    value.isNegative = true ∧ (.constant value, 1) ∈ terms := by
  obtain ⟨⟨child, count⟩, hm, hfilter⟩ := List.exists_of_findSome?_eq_some h
  obtain ⟨hv, hp⟩ := Option.filter_eq_some_iff.mp hfilter
  obtain ⟨rfl, hneg⟩ : count = 1 ∧ value.isNegative = true := by simpa using hp
  obtain rfl := Expr.eq_constant_of_constant? hv
  exact ⟨hneg, hm⟩

/-- A term is negated by its own sign or by that of a coefficient. -/
theorem negatedTerm?_eq_some {term flipped : Expr} (h : negatedTerm? term = some flipped) :
    (∃ value, value.isNegative = true ∧ term = .constant value ∧
      flipped = .constant value.negate) ∨
    (∃ terms value, value.isNegative = true ∧ (.constant value, 1) ∈ terms ∧
      term = .nary .mul terms ∧ flipped = .nary .mul
        (Bag.insert (.constant value.negate) (Bag.removeOne (.constant value) terms))) := by
  cases term with
  | constant value =>
    simp only [negatedTerm?] at h
    split at h
    · next hneg =>
      cases h
      exact Or.inl ⟨value, hneg, rfl, rfl⟩
    · cases h
  | nary op terms =>
    cases op with
    | mul =>
      obtain ⟨value, hv, rfl⟩ := Option.map_eq_some_iff.mp h
      obtain ⟨hneg, hm⟩ := negativeCoefficient?_eq_some hv
      exact Or.inr ⟨terms, value, hneg, hm, rfl, rfl⟩
    | add | bitAnd | bitOr | bitXor | and | or => cases h
  | symbol | unary | binary | conditional | call => cases h

theorem cofactor?_eq_some {inner : SemigroupOp} {factor term cofactor : Expr}
    (h : cofactor? inner factor term = some cofactor) :
    (term = factor ∧ cofactor = .nary inner []) ∨
    (∃ terms, term = .nary inner terms ∧ Bag.contains factor terms = true ∧
      cofactor = .nary inner (Bag.removeOne factor terms)) := by
  unfold cofactor? at h
  split at h
  · next he =>
    cases h
    exact Or.inl ⟨he, rfl⟩
  · cases term with
    | nary op terms =>
      dsimp only at h
      split at h
      · next hc =>
        cases h
        obtain ⟨rfl, hcontains⟩ : op = inner ∧ Bag.contains factor terms = true := by
          simpa using hc
        exact Or.inr ⟨terms, rfl, hcontains, rfl⟩
      · cases h
    | constant | symbol | unary | binary | conditional | call => cases h

theorem described_repetition : Described repetition := by
  intro ctx op e e' ho hc ha hr
  cases e with
  | nary op terms =>
    cases ho
    simp only [repetition, Except.ok.injEq] at hr
    subst hr
    refine .repetition ?_ ?_
    · cases op <;> simp [repetition, Trigger.covers] at hc ⊢
    · simpa [repetition, Expr.bag?, Bag.anyEntry] using ha
  | constant | symbol | unary | binary | conditional | call =>
    simp [repetition, Expr.bag?] at ha

theorem described_distribute : Described distribute := by
  intro ctx op e e' _ _ ha hr
  cases e with
  | nary op terms =>
    simp only [distribute] at ha
    obtain ⟨factor, hfactor⟩ := Option.isSome_iff_exists.mp ha
    obtain ⟨inner, hi, hf⟩ := Option.bind_eq_some_iff.mp hfactor
    simp only [distribute, hi, hf, Except.ok.injEq] at hr
    subst hr
    exact .distribute hi hf
  | constant | symbol | unary | binary | conditional | call => cases ha

theorem covers_of_absorbing {op : SemigroupOp} {terms : Bag} {value : Number}
    (h : absorbing? (.nary op terms) = some value) :
    shortCircuit.trigger.covers (.semigroup op) = true := by
  obtain ⟨_, _, hv⟩ := exists_of_absorbing? h
  cases op with
  | add | bitXor => cases hv
  | mul | bitAnd | bitOr | and | or => rfl

/-- The rules up to the one that lets a constant absorb the others. -/
def early : List Rule := semigroupFamily ++ [foldUnary, foldBinary, shortCircuit]

/-- The rules from the folding of constants on. -/
def late : List Rule :=
  [foldNary, naryBase, constantCondition] ++ comparisonFamily ++ factoringFamily

theorem all_eq_early_append_late : all = early ++ late := rfl

theorem described_of_mem_early {rule : Rule} (h : rule ∈ early) : Described rule := by
  simp only [early, semigroupFamily, List.cons_append, List.nil_append, List.mem_cons,
    List.not_mem_nil, or_false] at h
  rcases h with rfl | rfl | rfl | rfl | rfl | rfl
  · exact described_flatten
  · exact described_idempotent
  · exact described_involution
  · exact described_foldUnary
  · exact described_foldBinary
  · exact described_shortCircuit

theorem described_of_mem_late {rule : Rule} (h : rule ∈ late) :
    rule = foldNary ∨ Described rule := by
  simp only [late, comparisonFamily, factoringFamily, List.cons_append, List.nil_append,
    List.mem_cons, List.not_mem_nil, or_false] at h
  rcases h with rfl | rfl | rfl | rfl | rfl | rfl | rfl | rfl | rfl
  · exact Or.inl rfl
  · exact Or.inr described_naryBase
  · exact Or.inr described_constantCondition
  · exact Or.inr described_selfCompare
  · exact Or.inr described_negatedCompare
  · exact Or.inr described_subtractCompare
  · exact Or.inr described_compareZero
  · exact Or.inr described_repetition
  · exact Or.inr described_distribute

end Rules

namespace Engine

open Rules

variable {engine : Engine} {parent : Option Operator} {e : Expr} {step : Step}

theorem absorbing?_eq_none_of_settled {ctx : Context} {op : Operator} (ho : e.op? = some op)
    (h : firstRewrite ctx e (early.filter fun rule => rule.trigger.covers op) = .ok none) :
    absorbing? e = none := by
  cases hv : absorbing? e with
  | none => rfl
  | some value =>
    cases e with
    | nary op terms =>
      cases ho
      have hm : shortCircuit ∈ early.filter fun rule => rule.trigger.covers (.semigroup op) :=
        List.mem_filter.mpr ⟨by simp [early], covers_of_absorbing hv⟩
      have hr := firstRewrite_eq_none_iff.mp h shortCircuit hm (by simp [shortCircuit, hv])
      simp [shortCircuit, hv] at hr
    | constant | symbol | unary | binary | conditional | call => cases hv

theorem rewrites_of_rewrite? (hd : engine.registry = .default)
    (h : engine.rewrite? parent e = .ok (some step)) :
    Rewrites engine.config.wordBits e step.after := by
  simp only [rewrite?] at h
  cases ho : e.op? with
  | none => simp [ho] at h
  | some op =>
    simp only [ho, hd, Registry.candidates_default, all_eq_early_append_late,
      List.filter_append] at h
    rcases firstRewrite_append h with h | ⟨hearly, h⟩
    · obtain ⟨_, rule, _, hsplit, _, ha, hr, _⟩ := exists_of_firstRewrite_eq_some h
      have hm : rule ∈ early.filter fun rule => rule.trigger.covers op := by simp [hsplit]
      obtain ⟨hm, hc⟩ := List.mem_filter.mp hm
      exact described_of_mem_early hm _ op e _ ho hc ha hr
    · obtain ⟨_, rule, _, hsplit, _, ha, hr, _⟩ := exists_of_firstRewrite_eq_some h
      have hm : rule ∈ late.filter fun rule => rule.trigger.covers op := by simp [hsplit]
      obtain ⟨hm, hc⟩ := List.mem_filter.mp hm
      rcases described_of_mem_late hm with rfl | hdescribed
      · exact rewrites_foldNary ha hr (absorbing?_eq_none_of_settled ho hearly)
      · exact hdescribed _ op e _ ho hc ha hr

end Engine
end Symbolic
