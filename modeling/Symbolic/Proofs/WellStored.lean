import Symbolic.Expr.Storage
import Symbolic.Proofs.Related
import Symbolic.Proofs.RunFails
import Symbolic.Proofs.Termination

/-! Whatever is built, rewritten or simplified is well formed, and the default rules fail only where
an operation is undefined. -/
namespace Symbolic

namespace Expr

variable {op : Operator} {e : Expr} {children : List Expr}

theorem wellStored_iff : e.WellStored ↔ ∀ bag ∈ e.bag?, Bag.Canonical bag := by
  cases e <;> simp [WellStored, op?, storage?, bag?, Storage.Fits, Operator.operatorClass]

theorem wellFormed_int (v : Int) : (int v).WellFormed := wellFormed_iff.mpr ⟨nofun, nofun⟩

/-- Outside of multisets it is enough that the children are well formed. -/
theorem wellFormed_of_ordered (hb : e.bag? = none) (h : ∀ c ∈ e.ordered, c.WellFormed) :
    e.WellFormed := by
  refine wellFormed_iff.mpr ⟨by simp [hb], ?_⟩
  cases e with
  | nary => cases hb
  | constant | symbol | unary | binary | conditional | call => exact h

theorem wellFormed_pair (op : SemigroupOp) {a b : Expr} (ha : a.WellFormed) (hb : b.WellFormed) :
    (pair op a b).WellFormed := by
  refine wellFormed_nary (Bag.canonical_ofList _) fun c hc => ?_
  have hc := Bag.mem_keys_ofList.mp hc
  simp only [List.mem_cons, List.not_mem_nil, or_false] at hc
  rcases hc with rfl | rfl
  · exact ha
  · exact hb

theorem wellFormed_unary (op : UnaryOp) (h : e.WellFormed) : (unary op e).WellFormed :=
  wellFormed_of_ordered rfl (by simpa [ordered] using h)

theorem wellFormed_binary (op : BinaryOp) {a b : Expr} (ha : a.WellFormed) (hb : b.WellFormed) :
    (binary op a b).WellFormed :=
  wellFormed_of_ordered rfl (by simpa [ordered] using ⟨ha, hb⟩)

theorem wellFormed_neg (h : e.WellFormed) : (neg e).WellFormed :=
  wellFormed_pair .mul h (wellFormed_int (-1))

theorem wellFormed_operation (h : operation op children = .ok e)
    (hc : ∀ c ∈ children, c.WellFormed) :
    e.WellFormed := by
  simp only [operation] at h
  split at h
  · cases h
    exact wellFormed_nary (Bag.canonical_ofList _) fun c hm => hc c (Bag.mem_keys_ofList.mp hm)
  all_goals first
    | cases h
      exact wellFormed_of_ordered rfl hc
    | cases h

theorem wellFormed_of_mem_binaryBuilders {build : Expr → Expr → Expr} {a b : Expr}
    (h : build ∈ binaryBuilders) (ha : a.WellFormed) (hb : b.WellFormed) :
    (build a b).WellFormed := by
  simp only [binaryBuilders, List.mem_cons, List.not_mem_nil, or_false] at h
  rcases h with rfl | rfl | h
  · exact wellFormed_pair .add ha (wellFormed_neg hb)
  · exact wellFormed_pair .mul ha (wellFormed_binary .pow (wellFormed_int 2) hb)
  rcases h with rfl | rfl | rfl | rfl | rfl | rfl | rfl | rfl | rfl | rfl | rfl | rfl | rfl | rfl |
    rfl | rfl | rfl | rfl | rfl | rfl
  all_goals first
    | exact wellFormed_pair _ ha hb
    | exact wellFormed_binary _ ha hb
    | exact wellFormed_binary _ hb ha

end Expr

namespace Number

variable {a b : Number} {op : Operator}

theorem onIntegers_ne_notFoldable {f : Int → Int → Int} :
    onIntegers f a b ≠ .error (.notFoldable op) := by
  cases a <;> cases b <;> simp [onIntegers]

theorem boundedPower_ne_notFoldable {base : Int} {exponent : Nat} :
    boundedPower base exponent ≠ .error (.notFoldable op) := by
  simp only [boundedPower]
  split <;> simp

theorem pow_ne_notFoldable : a.pow b ≠ .error (.notFoldable op) := by
  simp only [pow]
  split
  · split
    · exact boundedPower_ne_notFoldable
    · simp
  · split
    · simp
    · split <;> simp

theorem shr_ne_notFoldable : a.shr b ≠ .error (.notFoldable op) := by
  simp only [shr]
  split
  · split
    · simp
    · split <;> simp
  · simp

theorem toWord_ne_notFoldable {bits : Nat} {v : Int} :
    toWord bits v ≠ .error (.notFoldable op) := by
  simp only [toWord]
  split <;> simp

theorem rotationOperands_ne_notFoldable {width : Nat} :
    rotationOperands a b width ≠ .error (.notFoldable op) := by
  simp only [rotationOperands]
  split
  · split
    · next v amount =>
      split
      · simp
      · cases hword : toWord 64 (TwosComplement.and v ((1 <<< width : Nat) - 1)) with
        | error cause =>
          rintro ⟨⟩
          exact toWord_ne_notFoldable hword
        | ok word =>
          cases hk : toWord 32 (amount.tmod width) with
          | error cause =>
            rintro ⟨⟩
            exact toWord_ne_notFoldable hk
          | ok k => exact nofun
    · simp
  · simp

end Number

theorem UnaryOp.eval_ne_notFoldable {op : UnaryOp} {value : Number} {op' : Operator} :
    op.eval value ≠ .error (.notFoldable op') := by
  cases op <;> cases value <;> simp [eval, Number.bitNot]

theorem BinaryOp.eval_ne_notFoldable {op : BinaryOp} {lhs rhs : Number} {width : Nat}
    {op' : Operator} : op.eval lhs rhs width ≠ .error (.notFoldable op') := by
  cases op with
  | trueDiv =>
    simp only [eval, Number.trueDiv]
    split <;> simp
  | floorDiv =>
    simp only [eval, Number.floorDiv]
    split
    · simp
    · split <;> simp
  | mod =>
    simp only [eval, Number.modulo]
    split
    · simp
    · split <;> simp
  | pow => exact Number.pow_ne_notFoldable
  | shr => exact Number.shr_ne_notFoldable
  | rol | ror =>
    have hoperands : Number.rotationOperands lhs rhs width ≠ .error (.notFoldable op') :=
      Number.rotationOperands_ne_notFoldable
    simp only [eval, Number.rotateLeft, Number.rotateRight]
    cases h : Number.rotationOperands lhs rhs width with
    | ok operands => simp [Except.map]
    | error cause => simpa [Except.map, h] using hoperands
  | eq | ne | lt | le => simp [eval]

theorem SemigroupOp.accumulate_ne_notFoldable {op : SemigroupOp} {acc value : Number} {count : Nat}
    {op' : Operator} : op.accumulate acc value count ≠ .error (.notFoldable op') := by
  cases op with
  | add | and | or => simp [accumulate]
  | mul =>
    cases value with
    | float x => simp [accumulate, Number.powCount, Except.map]
    | int v =>
      have hpower : Number.boundedPower v count ≠ .error (.notFoldable op') :=
        Number.boundedPower_ne_notFoldable
      simp only [accumulate, Number.powCount]
      cases h : Number.boundedPower v count with
      | ok power => simp [Except.map]
      | error cause => simpa [Except.map, h] using hpower
  | bitAnd | bitOr => exact Number.onIntegers_ne_notFoldable
  | bitXor =>
    simp only [accumulate]
    split
    · simp
    · exact Number.onIntegers_ne_notFoldable

namespace Rules

variable {width : Nat} {e e' : Expr} {err : SimplifyError} {op : Operator}

theorem accumulateAll_ne_notFoldable {op : SemigroupOp} {acc : Number} {entries : List (Expr × Nat)}
    {op' : Operator} : accumulateAll op acc entries ≠ .error (.notFoldable op') := by
  induction entries generalizing acc with
  | nil => simp [accumulateAll]
  | cons entry rest ih =>
    obtain ⟨e, count⟩ := entry
    cases e with
    | constant value =>
      simp only [accumulateAll]
      split
      · exact ih
      · next cause h =>
        rintro ⟨⟩
        exact SemigroupOp.accumulate_ne_notFoldable h
    | symbol | nary | unary | binary | conditional | call => exact ih

/-- Only an operation that has no value over constants fails, and its operator is never at fault. -/
theorem Raises.exists_cause (h : Raises width e err) :
    ∃ op cause, err = .undefinedOperation op cause ∧ ∀ op', cause ≠ .notFoldable op' := by
  cases h with
  | @foldUnary op value cause h =>
    refine ⟨.unary op, cause, rfl, ?_⟩
    rintro op' rfl
    exact UnaryOp.eval_ne_notFoldable h
  | @foldBinary op lhs rhs cause h =>
    refine ⟨.binary op, cause, rfl, ?_⟩
    rintro op' rfl
    exact BinaryOp.eval_ne_notFoldable h
  | @foldNary op terms cause h =>
    refine ⟨.semigroup op, cause, rfl, ?_⟩
    rintro op' rfl
    exact accumulateAll_ne_notFoldable h

theorem wellFormed_foldNary {ctx : Context} (hw : e.WellFormed)
    (h : foldNary.rewrite ctx e = .ok e') :
    e'.WellFormed := by
  cases e with
  | nary op terms =>
    simp only [foldNary] at h
    split at h
    · cases h
    · cases h
      have hrest := everywhere_legal_filter (fun entry => !entry.1.isConstant)
        (wellFormed_iff_legal.mp hw)
      split
      · exact wellFormed_of_legal hrest
      · exact wellFormed_of_legal (everywhere_legal_insert hrest (everywhere_legal_constant _))
  | constant | symbol | unary | binary | conditional | call =>
    cases h
    exact hw

/-- A default rule that is offered a node and applies keeps the storage fitting. -/
theorem wellFormed_of_mem_all {rule : Rule} {ctx : Context} (hm : rule ∈ all) (ho : e.op? = some op)
    (hc : rule.trigger.covers op = true) (ha : rule.applies ctx e = true) (hw : e.WellFormed)
    (h : rule.rewrite ctx e = .ok e') : e'.WellFormed := by
  have hdescribed : rule = foldNary ∨ Described rule := by
    rcases List.mem_append.mp (all_eq_early_append_late ▸ hm) with hm | hm
    · exact Or.inr (described_of_mem_early hm)
    · exact described_of_mem_late hm
  rcases hdescribed with rfl | hdescribed
  · exact wellFormed_foldNary hw h
  · exact (hdescribed ctx op e e' ho hc ha h).wellFormed hw

end Rules

namespace Engine

open Rules Symbolic.Expr

variable {engine : Engine} {parent : Option Operator} {e : Expr} {err : SimplifyError}

/-- A failure of a run is the failure of a default rule on some node. -/
theorem Fails.exists_raises (h : engine.Fails parent e err) (hd : engine.registry = .default) :
    ∃ node, Raises engine.config.wordBits node err := by
  induction h with
  | child _ _ ih => exact ih
  | rule _ _ _ hr => exact ⟨_, raises_of_rewrite? hd hr⟩
  | rewritten _ _ _ _ _ _ ih => exact ih

/-- A run fails by a limit, or by an operation that has no value over constants. -/
theorem exists_cause_of_run (hd : engine.registry = .default) (h : (engine.run e).1 = .error err) :
    err = .tooDeep engine.config.maxDepth ∨ IsNonTerminating err ∨
      ∃ op cause, err = .undefinedOperation op cause ∧ ∀ op', cause ≠ .notFoldable op' := by
  rcases fails_of_run_eq_error (Prod.ext h rfl) with (hdeep | hsteps) | hfails
  · exact Or.inl hdeep
  · exact Or.inr (Or.inl hsteps)
  · obtain ⟨node, hraises⟩ := hfails.exists_raises hd
    exact Or.inr (Or.inr hraises.exists_cause)

theorem ne_construction_of_run (hd : engine.registry = .default) (h : (engine.run e).1 = .error err)
    (cause : ExprError) : err ≠ .construction cause := by
  rintro rfl
  rcases exists_cause_of_run hd h with hdeep | ⟨_, _, hsteps⟩ | ⟨_, _, hundefined, _⟩
  · cases hdeep
  · cases hsteps
  · cases hundefined

theorem ne_notFoldable_of_run (hd : engine.registry = .default) (h : (engine.run e).1 = .error err)
    (op op' : Operator) : err ≠ .undefinedOperation op (.notFoldable op') := by
  rintro rfl
  rcases exists_cause_of_run hd h with hdeep | ⟨_, _, hsteps⟩ | ⟨_, _, hundefined, hfoldable⟩
  · cases hdeep
  · cases hsteps
  · cases hundefined
    exact hfoldable op' rfl

theorem wellFormed_of_run {config : Config} {o : Outcome} (hw : e.WellFormed)
    (h : (run ⟨.default, config, true⟩ e).1 = .ok o) : o.expr.WellFormed := by
  have hsimplify : simplify e config = .ok o.expr := by rw [simplify, simplifyWith, h]; rfl
  obtain ⟨_, _, hnorm⟩ := normalizes_of_simplify hsimplify
  exact hnorm.wellFormed rfl hw

end Engine
end Symbolic
