import Symbolic.Proofs.RunFails
import Symbolic.Proofs.ValuePreserved

/-! Where all of an expression stands for integers, no constants are folded that have no value
together: all that a rule can refuse is a power that is too large. -/
namespace Symbolic

namespace Expr

variable {reading : Reading} {place : Place} {e c : Expr}

/-- In a strict reading nothing below an expression that stands for an integer is skipped. -/
theorem Defined.of_mem_children (h : e.Defined reading place) (hs : reading.strict = true)
    (hc : c ∈ e.children) : ∃ place, c.Defined reading place := by
  cases e with
  | constant | symbol => cases hc
  | nary op terms => exact ⟨_, (defined_nary_iff.mp h).2 c hc⟩
  | unary op arg =>
    obtain rfl := List.mem_singleton.mp hc
    obtain ⟨v, hv, _⟩ := Option.map_eq_some_iff.mp h.read
    exact ⟨_, defined_of_read hv⟩
  | binary op lhs rhs =>
    obtain ⟨hl, hr, _⟩ := Rules.read_binary_eq_some_iff.mp h.read
    simp only [children, ordered, List.mem_cons, List.not_mem_nil, or_false] at hc
    rcases hc with rfl | rfl
    · exact ⟨_, hl⟩
    · exact ⟨_, hr⟩
  | conditional test whenTrue whenFalse =>
    obtain ⟨t, ht, hchosen⟩ := Option.bind_eq_some_iff.mp h.read
    obtain ⟨htrue, hfalse⟩ := (Reading.choose_eq_some_iff.mp hchosen).1 hs
    simp only [children, ordered, List.mem_cons, List.not_mem_nil, or_false] at hc
    rcases hc with rfl | rfl | rfl
    · exact ⟨_, defined_of_read ht⟩
    · exact ⟨_, htrue⟩
    · exact ⟨_, hfalse⟩
  | call callee args => cases h

end Expr

namespace Rules

open Symbolic.Expr

/-- The failure of an operation whose result is too large. -/
def IsTooLarge (err : SimplifyError) : Prop := ∃ op, err = .undefinedOperation op .resultTooLarge

variable {reading : Reading} {place : Place} {e : Expr} {err : SimplifyError}

theorem Raises.isTooLarge (h : Raises reading.width e err) (hw : e.WellFormed)
    (hd : e.Defined reading place) : IsTooLarge err := by
  cases h with
  | @foldUnary op value cause h =>
    obtain ⟨v, hv, _⟩ := Option.map_eq_some_iff.mp hd.read
    obtain ⟨a, rfl⟩ := exists_int_of_defined (defined_of_read hv)
    cases (op.eval_int a).symm.trans h
  | foldBinary h =>
    obtain ⟨hl, hr, hresult⟩ := read_binary_eq_some_iff.mp hd.read
    obtain ⟨a, rfl⟩ := exists_int_of_defined hl
    obtain ⟨b, rfl⟩ := exists_int_of_defined hr
    exact ⟨_, congrArg _ ((BinaryOp.foldsTo_of_result? hresult).eq_of_error h)⟩
  | @foldNary op terms cause h =>
    rw [SemigroupOp.identity_eq] at h
    have hfolds := foldsTo_accumulateAll op.seen_neutral hw.canonical.2 (defined_nary_iff.mp hd).2
    exact ⟨_, congrArg _ (hfolds.eq_of_error h)⟩

end Rules

namespace Engine

open Rules Symbolic.Expr

variable {engine : Engine} {levels : Nat} {parent : Option Operator} {e : Expr}
  {err : SimplifyError} {env : Assignment} {place : Place} {image : Expr → Expr} {cost : Expr → Nat}

/-- Over its normalized children a node stands for an integer, if it does over its own. -/
theorem defined_rebuilt (hc : ∀ c ∈ e.children, engine.Normalizes levels e.op? c (image c) (cost c))
    (hd : engine.registry = .default) (hw : e.WellFormed)
    (hdefined : e.Defined ⟨engine.config.wordBits, env, true, true⟩ place) :
    (e.rebuilt image).WellFormed ∧
      (e.rebuilt image).Defined ⟨engine.config.wordBits, env, true, true⟩ place := by
  have hrebuilt := wellFormed_rebuilt hw fun c hm => (hc c hm).wellFormed hd (hw.of_mem_children hm)
  exact ⟨hrebuilt, (accords_rebuilt fun c hm =>
    (hc c hm).accords hd (hw.of_mem_children hm)).defined hdefined⟩

/-- Each node that normalization reaches stands for an integer, if the expression and all below it
do. -/
theorem Fails.isTooLarge (h : engine.Fails parent e err) (hd : engine.registry = .default)
    (hw : e.WellFormed) (hdefined : e.Defined ⟨engine.config.wordBits, env, true, true⟩ place) :
    IsTooLarge err := by
  induction h generalizing place with
  | child hc _ ih =>
    obtain ⟨place', hchild⟩ := hdefined.of_mem_children rfl hc
    exact ih (hw.of_mem_children hc) hchild
  | rule image cost hc hr =>
    obtain ⟨hrebuilt, hover⟩ := defined_rebuilt hc hd hw hdefined
    exact (raises_of_rewrite? hd hr).isTooLarge hrebuilt hover
  | rewritten image cost step hc hr _ ih =>
    obtain ⟨hrebuilt, hover⟩ := defined_rebuilt hc hd hw hdefined
    have hnormal := normalForm_rebuilt_child fun c hm => (hc c hm).normalForm
    have hafter := (accords_of_rewrite? hd hrebuilt hnormal hr).defined hover
    exact ih ((rewrites_of_rewrite? hd hr).wellFormed hrebuilt) hafter

/-- Where an expression without `&&` and `||` and all expressions below it stand for integers, no
simplification by the default rules meets an undefined operation, but for a result that is too
large. -/
theorem resultTooLarge_of_simplifyWith {config : Config} {op : Operator} {cause : NumericError}
    (hw : e.WellFormed) (ha : e.Arithmetic)
    (hd : e.Everywhere fun x => (x.value? config.wordBits env).isSome = true)
    (h : simplifyWith .default config e = .error (.undefinedOperation op cause)) :
    cause = .resultTooLarge := by
  obtain ⟨v, hv⟩ := Option.isSome_iff_exists.mp (everywhere_iff.mp hd).1
  rw [← read_exact config.wordBits env .value] at hv
  have hdefined : e.Defined ⟨config.wordBits, env, true, true⟩ .value :=
    defined_of_read (read_mono (fun _ => Or.inr (ha.keepsPlaces .value)) id (read_strict hd hv))
  have hrun : run ⟨.default, config, true⟩ e =
      (.error (.undefinedOperation op cause), (run ⟨.default, config, true⟩ e).2) := Prod.ext h rfl
  rcases fails_of_run_eq_error hrun with (hdeep | ⟨_, _, hsteps⟩) | hfails
  · cases hdeep
  · cases hsteps
  · obtain ⟨_, hlarge⟩ := hfails.isTooLarge rfl hw hdefined
    cases hlarge
    rfl

/-- In the exponent of `2 ** (8388609 + y + -1 * y)` the `y` cancels, and the power that is left has
more bits than are computed. -/
theorem resultTooLarge_of_cancelled_exponent :
    let y := Expr.symbol "y"
    let e := Expr.pow (.int 2)
      (.nary .add [(.int 8388609, 1), (y, 1), (.nary .mul [(.int (-1), 1), (y, 1)], 1)])
    let env : Assignment := fun _ => 5
    e.WellFormed ∧ e.Arithmetic ∧ (e.Everywhere fun x => (x.value? 32 env).isSome = true) ∧
      ∃ cause, simplifyWith .default {} e = .error (.undefinedOperation (.binary .pow) cause) ∧
        cause = .resultTooLarge := by
  have hrun : ∃ cause, simplifyWith .default {} (.pow (.int 2) (.nary .add [(.int 8388609, 1),
      (.symbol "y", 1), (.nary .mul [(.int (-1), 1), (.symbol "y", 1)], 1)])) =
        .error (.undefinedOperation (.binary .pow) cause) := ⟨_, rfl⟩
  have hd : (Expr.pow (.int 2) (.nary .add [(.int 8388609, 1), (.symbol "y", 1),
      (.nary .mul [(.int (-1), 1), (.symbol "y", 1)], 1)])).Everywhere
        fun x => (x.value? 32 fun _ => 5).isSome = true := by decide
  obtain ⟨cause, h⟩ := hrun
  exact ⟨by decide, by decide, hd, cause, h,
    resultTooLarge_of_simplifyWith (by decide) (by decide) hd h⟩

end Engine
end Symbolic
