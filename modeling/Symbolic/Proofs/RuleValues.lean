import Symbolic.Proofs.Progress
import Symbolic.Proofs.ValuePreserved

/-! Each rule by itself keeps the value of the node that it rewrites, in whatever form its children
are. -/
namespace Symbolic

namespace Expr

variable {width : Nat} {env : Assignment} {op : SemigroupOp} {terms : Bag} {x : Expr} {v : Int}

/-- An operation under a logical operator stands for a truth value. -/
theorem truth_of_value? (hop : op.isLogical = true)
    (hv : (nary op terms).value? width env = some v) :
    truth (v ≠ 0) = v := by
  rw [← read_exact width env .value] at hv
  obtain ⟨_, _, rfl⟩ := read_nary_eq_some_iff.mp hv
  rw [← SemigroupOp.seen_of_isLogical hop, SemigroupOp.seen_total]

/-- A logical operation over a single operand stands for the truth of the operand. -/
theorem exists_value?_of_single (hop : op.isLogical = true)
    (hv : (nary op [(x, 1)]).value? width env = some v) :
    ∃ w, x.value? width env = some w ∧ v = truth (w ≠ 0) := by
  rw [← read_exact width env .value] at hv
  obtain ⟨_, hkeys, rfl⟩ := read_nary_eq_some_iff.mp hv
  have hx := (hkeys x List.mem_cons_self).read
  rw [read_exact] at hx
  exact ⟨_, hx, SemigroupOp.seen_of_isLogical hop _⟩

end Expr

namespace Rules

open Symbolic.Expr

variable {reading : Reading} {ctx : Context} {rule : Rule} {op : SemigroupOp} {e r x : Expr}
  {value : Number} {v : Int} {env : Assignment}

theorem keeps_foldNary {place : Place} (hw : e.WellFormed) (hr : foldNary.rewrite ctx e = .ok r) :
    Keeps reading place e r := by
  cases e with
  | nary op terms =>
    simp only [foldNary] at hr
    cases hv : accumulateAll op op.identity terms with
    | error cause => simp [hv] at hr
    | ok value =>
      simp only [hv, Except.ok.injEq] at hr
      subst hr
      exact keeps_folded hw.canonical hv
  | constant | symbol | unary | binary | conditional | call =>
    cases hr
    exact fun v hv => hv

theorem absorbed?_of_isLogical {z : Number} (hop : op.isLogical = true)
    (h : absorbed? op z = some value) : value = 0 ∨ value = 1 := by
  cases op with
  | and =>
    obtain ⟨_, rfl⟩ := by simpa [absorbed?] using h
    exact Or.inl rfl
  | or =>
    obtain ⟨_, rfl⟩ := by simpa [absorbed?] using h
    exact Or.inr rfl
  | add | mul | bitAnd | bitOr | bitXor => cases hop

/-- The rules that are offered the operations of `&&` and `||`. -/
theorem mem_of_covers_logical (hm : rule ∈ all) (hop : op.isLogical = true)
    (hc : rule.trigger.covers (.semigroup op) = true) :
    rule ∈ [flatten, idempotent, shortCircuit, foldNary, naryBase, distribute] := by
  have hoffered : rule ∈ all.filter fun rule => rule.trigger.covers (.semigroup op) :=
    List.mem_filter.mpr ⟨hm, hc⟩
  cases op with
  | and | or => exact hoffered
  | add | mul | bitAnd | bitOr | bitXor => cases hop

/-- Of the rules that take the single operand of a logical operation for the operation, only one
does so whatever the operand is: for the others it is such an operation itself, or a truth value. -/
theorem eq_naryBase_of_single (hm : rule ∈ all) (hop : op.isLogical = true)
    (hw : (Expr.nary op [(x, 1)]).WellFormed) (hc : rule.trigger.covers (.semigroup op) = true)
    (ha : rule.applies ctx (.nary op [(x, 1)]) = true)
    (hr : rule.rewrite ctx (.nary op [(x, 1)]) = .ok x) :
    rule = naryBase ∨ isNary op x = true ∨ x = .constant 0 ∨ x = .constant 1 := by
  have hoffered := mem_of_covers_logical hm hop hc
  simp only [List.mem_cons, List.not_mem_nil, or_false] at hoffered
  rcases hoffered with rfl | rfl | rfl | rfl | rfl | rfl
  · exact Or.inr (Or.inl (by simpa [flatten, Bag.anyEntry] using ha))
  · simp [idempotent, hasRepeated, Expr.bag?, Bag.anyEntry] at ha
  · obtain ⟨value, habsorbing⟩ := Option.isSome_iff_exists.mp ha
    simp only [shortCircuit, habsorbing, Except.ok.injEq] at hr
    obtain ⟨z, _, hz⟩ := exists_of_absorbing? habsorbing
    rw [← hr]
    have htruth := absorbed?_of_isLogical hop hz
    exact Or.inr (Or.inr (htruth.imp (congrArg Expr.constant) (congrArg Expr.constant)))
  · cases hv : accumulateAll op op.identity [(x, 1)] with
    | error cause => simp [foldNary, hv] at hr
    | ok value =>
      simp only [foldNary, hv, Except.ok.injEq] at hr
      exact Or.inr (Or.inl (isNary_iff.mpr ⟨_, hr.symm⟩))
  · exact Or.inl rfl
  · -- Two terms share the factor that is pulled out, and there is only one.
    obtain ⟨factor, hf⟩ := Option.isSome_iff_exists.mp ha
    obtain ⟨inner, _, hf⟩ := Option.bind_eq_some_iff.mp hf
    have htwo := two_le_total_sharing hw hf
    have hsplit :=
      Bag.total_filter_add (fun entry => (cofactor? inner factor entry.1).isSome) [(x, 1)]
    simp only [sharing, Bag.total] at htwo hsplit
    omega

/-- A rule that covers a node and applies to it leaves a value where the node has one, and the same
one. Only `&&` and `||` over a single operand are replaced by the operand, which has their truth but
need not be a truth value. -/
theorem exists_value?_of_rewrite {tag : Operator} (hm : rule ∈ all) (hw : e.WellFormed)
    (hfit : MultiplicitiesFit e) (ho : e.op? = some tag) (hc : rule.trigger.covers tag = true)
    (ha : rule.applies ctx e = true) (hr : rule.rewrite ctx e = .ok r)
    (hv : e.value? ctx.config.wordBits env = some v) :
    ∃ w, r.value? ctx.config.wordBits env = some w ∧
      (w = v ∨ rule = naryBase ∧ v = truth (w ≠ 0) ∧
        ∃ op : SemigroupOp, op.isLogical = true ∧ e = .nary op [(r, 1)]) := by
  have hexact : ∀ op terms, e = .nary op terms → ∀ inner count, (.nary op inner, count) ∈ terms →
      ∀ entry ∈ inner, scaledCount entry.2 count = entry.2 * count := by
    rintro op terms rfl inner count hinner entry hentry
    exact if_pos (hfit inner count hinner entry hentry)
  have hkept : (∀ place, Keeps ⟨ctx.config.wordBits, env, false, false⟩ place e r) ∨
      ∃ op : SemigroupOp, op.isLogical = true ∧ e = .nary op [(r, 1)] := by
    rw [all_eq_early_append_late, List.mem_append] at hm
    rcases hm with hm | hm
    · exact (described_of_mem_early hm ctx tag e r ho hc ha hr).keeps hw hexact
    · rcases described_of_mem_late hm with rfl | hdescribed
      · exact Or.inl fun _ => keeps_foldNary hw hr
      · exact (hdescribed ctx tag e r ho hc ha hr).keeps hw hexact
  rcases hkept with hkeeps | ⟨op, hop, rfl⟩
  · refine ⟨v, ?_, Or.inl rfl⟩
    rw [← read_exact _ _ .value] at hv ⊢
    exact hkeeps .value v hv
  · cases ho
    obtain ⟨w, hw', rfl⟩ := exists_value?_of_single hop hv
    refine ⟨w, hw', ?_⟩
    rcases eq_naryBase_of_single hm hop hw hc ha hr with hbase | hnary | rfl | rfl
    · exact Or.inr ⟨hbase, rfl, op, hop, rfl⟩
    · obtain ⟨terms, rfl⟩ := isNary_iff.mp hnary
      exact Or.inl (truth_of_value? hop hw').symm
    · cases hw'
      exact Or.inl rfl
    · cases hw'
      exact Or.inl rfl

/-- `(x && y) && (x && y)` holds its operands twice over, and flattening it keeps its value 1 where
`x` is 2 and `y` is 3. -/
theorem exists_value?_of_flattened :
    let conjunction := Expr.nary .and [(.symbol "x", 1), (.symbol "y", 1)]
    let e := Expr.nary .and [(conjunction, 2)]
    let r := Expr.nary .and [(.symbol "x", 2), (.symbol "y", 2)]
    let ctx : Context := ⟨none, {}⟩
    let env : Assignment := fun name => if name = "x" then 2 else 3
    flatten ∈ all ∧ e.WellFormed ∧ MultiplicitiesFit e ∧ flatten.applies ctx e = true ∧
      flatten.rewrite ctx e = .ok r ∧ e.value? 32 env = some 1 ∧ r.value? 32 env = some 1 := by
  have hfit : MultiplicitiesFit
      (.nary .and [(.nary .and [(.symbol "x", 1), (.symbol "y", 1)], 2)]) := by
    intro inner count hm
    cases List.mem_singleton.mp hm
    decide
  have hm : flatten ∈ all := by simp [all, semigroupFamily]
  refine ⟨hm, by decide, hfit, rfl, rfl, rfl, ?_⟩
  obtain ⟨w, hw, rfl | ⟨_, _, op, _, hsingle⟩⟩ :=
    exists_value?_of_rewrite hm (by decide) hfit rfl rfl
    rfl (rfl : flatten.rewrite ⟨none, {}⟩ _ = .ok _)
    (rfl : Expr.value? 32 (fun name => if name = "x" then 2 else 3) _ = some 1)
  · exact hw
  · cases hsingle

/-- `&&` over 5 alone is 1, and the rule for single operands makes 5 of it. -/
theorem naryBase_of_lone_integer :
    let e := Expr.nary .and [(.int 5, 1)]
    let ctx : Context := ⟨none, {}⟩
    naryBase ∈ all ∧ e.WellFormed ∧ MultiplicitiesFit e ∧
      naryBase.trigger.covers (.semigroup .and) = true ∧ naryBase.applies ctx e = true ∧
      naryBase.rewrite ctx e = .ok (.int 5) ∧
      ∀ env : Assignment, e.value? 32 env = some 1 ∧ (Expr.int 5).value? 32 env = some 5 := by
  refine ⟨by simp [all, foldingFamily], by decide, ?_, rfl, rfl, rfl, fun _ => ⟨rfl, rfl⟩⟩
  intro inner count hm
  cases List.mem_singleton.mp hm

end Rules
end Symbolic
