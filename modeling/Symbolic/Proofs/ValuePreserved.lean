import Symbolic.Proofs.ComparisonValues
import Symbolic.Proofs.Related
import Symbolic.Proofs.Termination

/-! Simplification keeps values: every rewrite does where the children are normal forms, and a run
only rewrites such nodes. -/
namespace Symbolic

/-- Every operator in the expression is exact on integers: none is `&&` or `||`. -/
def Expr.Arithmetic (e : Expr) : Prop :=
  ∀ occurrence ∈ e.occurrences none, ∀ op ∈ occurrence.2.op?, op.isLogical = false

instance (e : Expr) : Decidable e.Arithmetic :=
  inferInstanceAs (Decidable (∀ occurrence ∈ e.occurrences none,
    ∀ op ∈ occurrence.2.op?, op.isLogical = false))

namespace Expr

variable {width : Nat} {env : Assignment} {strict : Bool} {e e' : Expr} {place : Place} {v : Int}

/-- Without `&&` and `||` there is nothing that has to keep to a place. -/
theorem Arithmetic.keepsPlaces (h : e.Arithmetic) (place : Place) : e.keepsPlaces place = true := by
  induction e using Expr.induction generalizing place with
  | h e ih =>
    have heverywhere : e.Everywhere fun x => ∀ op ∈ x.op?, op.isLogical = false := h
    obtain ⟨hop, hchildren⟩ := everywhere_iff.mp heverywhere
    have hc : ∀ c ∈ e.children, ∀ place, c.keepsPlaces place = true := by
      intro c hm place
      exact ih c hm (hchildren c hm) place
    cases e with
    | constant | symbol => rfl
    | nary op terms =>
      have hexact : op.isLogical = false := hop _ rfl
      simp only [Expr.keepsPlaces, hexact, Bool.not_false, Bool.true_or, Bool.true_and]
      exact termsKeepPlaces_iff.mpr fun x hx => hc x hx op.place
    | unary op arg => exact hc arg List.mem_cons_self op.place
    | binary op lhs rhs =>
      simp [children, ordered] at hc
      simp [Expr.keepsPlaces, hc]
    | conditional test whenTrue whenFalse =>
      simp [children, ordered] at hc
      simp [Expr.keepsPlaces, hc]
    | call callee args =>
      simp only [Expr.keepsPlaces, Bool.and_eq_true, argsKeepPlaces_iff]
      exact ⟨hc callee List.mem_cons_self _, fun x hx => hc x (List.mem_cons_of_mem _ hx) _⟩

theorem read_of_value? (hk : e.keepsPlaces place = true) (hv : e.value? width env = some v) :
    e.read ⟨width, env, false, true⟩ place = some v := by
  rw [← read_exact width env place] at hv
  exact read_mono (fun _ => Or.inr hk) id hv

theorem value?_of_read (h : e.read ⟨width, env, false, true⟩ place = some v) :
    e.value? width env = some v := by
  rw [← read_exact width env place]
  exact read_mono nofun id h

/-- Exact evaluation agrees at a place that `&&` and `||` keep to. -/
theorem Accords.exists_value? (h : Accords ⟨width, env, false, true⟩ e e')
    (hk : e.keepsPlaces place = true) (hv : e.value? width env = some v) :
    ∃ w, e'.value? width env = some w ∧ place.Agrees v w := by
  obtain ⟨w, hw, hagrees⟩ := h place v (read_of_value? hk hv)
  exact ⟨w, value?_of_read hw, hagrees⟩

theorem compatible_accords (reading : Reading) : Compatible (Accords reading) where
  refl := .refl
  trans := .trans
  rebuilt := accords_rebuilt

end Expr

namespace Rules

open Symbolic.Expr

/-- The operators that are exact on integers. -/
def IsExact (op : Operator) : Prop := op.isLogical = false

/-- No rewrite brings in a logical operator for an exact one. -/
theorem closed_isExact : Closed IsExact := by
  intro op op' h hop
  cases h with
  | inner hi => exact (isLogical_of_innerOf? hi).trans hop
  | product | power | comparison | sum | negation => rfl

theorem compatible_legal (p : Operator → Prop) :
    Compatible fun e e' => e.Everywhere (Legal p) → e'.Everywhere (Legal p) where
  refl _ h := h
  trans h₁ h₂ h := h₂ (h₁ h)
  rebuilt hc h := everywhere_legal_rebuilt h fun c hm => hc c hm ((everywhere_iff.mp h).2 c hm)

theorem legal_isExact_iff {e : Expr} :
    e.Everywhere (Legal IsExact) ↔ e.WellFormed ∧ e.Arithmetic :=
  ⟨fun h => ⟨fun o ho => (h o ho).1, fun o ho => (h o ho).2⟩, fun h o ho => ⟨h.1 o ho, h.2 o ho⟩⟩

variable {reading : Reading} {e e' : Expr}

/-- A rewrite keeps each value, in whatever place, but for `&&` or `||` over a single operand that
takes its place. Flattening needs that the products of multiplicities are exact, since one stops at
the largest machine word. -/
theorem Rewrites.keeps (h : Rewrites reading.width e e') (hw : e.WellFormed)
    (hexact : ∀ op terms, e = .nary op terms → ∀ inner count, (.nary op inner, count) ∈ terms →
      ∀ entry ∈ inner, scaledCount entry.2 count = entry.2 * count) :
    (∀ place, Keeps reading place e e') ∨
      ∃ op : SemigroupOp, op.isLogical = true ∧ e = .nary op [(e', 1)] := by
  cases h with
  | @single op =>
    cases hop : op.isLogical with
    | false => exact Or.inl fun _ => keeps_single hop
    | true => exact Or.inr ⟨op, hop, rfl⟩
  | flatten => exact Or.inl fun _ => keeps_flattened hw.canonical (hexact _ _ rfl)
  | idempotent hop => exact Or.inl fun _ => keeps_idempotent hop hw.canonical
  | involution => exact Or.inl fun _ => keeps_involution
  | foldUnary h => exact Or.inl fun _ => keeps_foldUnary h
  | foldBinary h => exact Or.inl fun _ => keeps_foldBinary h
  | shortCircuit h => exact Or.inl fun _ => keeps_shortCircuit hw.canonical h
  | foldNary _ _ _ h => exact Or.inl fun _ => keeps_folded hw.canonical h
  | empty => exact Or.inl fun _ => keeps_empty
  | constantCondition => exact Or.inl fun _ => keeps_constantCondition
  | selfCompare hop => exact Or.inl fun _ => keeps_selfCompare hop
  | negatedCompare h => exact Or.inl fun _ => keeps_negatedCompare h
  | subtractRight hop =>
    have hsum := hw.of_mem_children List.mem_cons_self
    exact Or.inl fun _ => keeps_subtractRight hop hsum
  | subtractLeft hop =>
    have hsum := hw.of_mem_children (List.mem_cons_of_mem _ List.mem_cons_self)
    exact Or.inl fun _ => keeps_subtractLeft hop hsum
  | equalsZero h => exact Or.inl fun _ => keeps_equalsZero h
  | differsFromZero h => exact Or.inl fun _ => keeps_differsFromZero h
  | repetition hop => exact Or.inl fun _ => keeps_repetition hop
  | distribute hi hf =>
    obtain ⟨term, hm, hfactor⟩ := exists_mem_factors hf
    exact Or.inl fun _ => keeps_factored hi hw hm hfactor

/-- A rewrite leaves a value that agrees, where `&&` and `||` have one only where truth counts. -/
theorem Rewrites.accords (h : Rewrites reading.width e e') (hs : reading.sorted = true)
    (hw : e.WellFormed)
    (hone : ∀ op inner, .nary op inner ∈ e.children → ∀ entry ∈ inner, entry.2 = 1) :
    Accords reading e e' := by
  have hexact : ∀ op terms, e = .nary op terms → ∀ inner count, (.nary op inner, count) ∈ terms →
      ∀ entry ∈ inner, scaledCount entry.2 count = entry.2 * count := by
    rintro op terms rfl inner count hm entry hentry
    rw [hone op inner (List.mem_map_of_mem hm) entry hentry, scaledCount_one]
  rcases h.keeps hw hexact with hkeeps | ⟨op, hop, rfl⟩
  · exact accords_of_keeps hkeeps
  · exact accords_single hs

end Rules

namespace Engine

open Rules Symbolic.Expr

variable {engine : Engine} {levels steps : Nat} {parent : Option Operator} {e n : Expr}
  {env : Assignment} {strict : Bool}

theorem accords_of_rewrite? {step : Step} (hd : engine.registry = .default) (hw : e.WellFormed)
    (hc : ∀ c ∈ e.children, engine.NormalForm e.op? c)
    (hr : engine.rewrite? parent e = .ok (some step)) :
    Accords ⟨engine.config.wordBits, env, strict, true⟩ e step.after := by
  refine Rewrites.accords (rewrites_of_rewrite? hd hr) rfl hw ?_
  intro op inner hm entry hentry
  exact ((hc _ hm).atRest hd (hw.of_mem_children hm)).count_eq_one hentry

/-- A run from a well-formed expression stays inside each relation that the replacement of children
and the rewrites of well-formed nodes over normal forms stay inside. -/
theorem Normalizes.related_of_default {r : Expr → Expr → Prop}
    (h : engine.Normalizes levels parent e n steps) (hd : engine.registry = .default)
    (hw : e.WellFormed) (hr : Compatible r)
    (hrewrites : ∀ parent e step, e.WellFormed → (∀ c ∈ e.children, engine.NormalForm e.op? c) →
      engine.rewrite? parent e = .ok (some step) → r e step.after) : r e n := by
  have hrelated := h.related hr.wellFormed fun parent e step hc hstep hw =>
    ⟨(rewrites_of_rewrite? hd hstep).wellFormed hw, hrewrites parent e step hw hc hstep⟩
  exact (hrelated hw).2

theorem Normalizes.accords (h : engine.Normalizes levels parent e n steps)
    (hd : engine.registry = .default) (hw : e.WellFormed) :
    Accords ⟨engine.config.wordBits, env, strict, true⟩ e n :=
  h.related_of_default hd hw (compatible_accords _) fun _ _ _ hw hc hr =>
    accords_of_rewrite? hd hw hc hr

/-- The normal form of an exact expression is exact, and it has each value that the expression
has. -/
theorem Normalizes.keeps (h : engine.Normalizes levels parent e n steps)
    (hd : engine.registry = .default) (he : e.Everywhere (Legal IsExact)) :
    (∀ v, e.value? engine.config.wordBits env = some v →
      n.value? engine.config.wordBits env = some v) ∧
      n.Everywhere (Legal IsExact) := by
  obtain ⟨hw, ha⟩ := legal_isExact_iff.mp he
  refine ⟨fun v hv => ?_, ?_⟩
  · obtain ⟨w, hvalue, rfl⟩ := (h.accords hd hw).exists_value? (ha.keepsPlaces .value) hv
    exact hvalue
  · exact h.related (compatible_legal IsExact) (fun _ _ _ _ hr =>
      (rewrites_of_rewrite? hd hr).legal closed_isExact) he

/-- Where an expression without `&&` and `||` stands for an integer, the result of its
simplification by the default rules stands for the same one. -/
theorem value?_of_simplifyWith {config : Config} {o : Outcome} (hw : e.WellFormed)
    (ha : e.Arithmetic) (h : simplifyWith .default config e = .ok o) {v : Int}
    (hv : e.value? config.wordBits env = some v) : o.expr.value? config.wordBits env = some v := by
  obtain ⟨reach, steps, hran⟩ := ran_of_simplifyWith_eq_ok h
  exact (hran.normalizes.keeps rfl (legal_isExact_iff.mpr ⟨hw, ha⟩)).1 v hv

/-- `x + x + x * y` becomes `x * (2 + y)`, and both are 20 where `x` is 5 and `y` is 2. -/
theorem value?_of_factored_sum :
    let x := Expr.symbol "x"
    let y := Expr.symbol "y"
    let e := Expr.nary .add [(x, 2), (.nary .mul [(x, 1), (y, 1)], 1)]
    let e' := Expr.nary .mul [(x, 1), (.nary .add [(.int 2, 1), (y, 1)], 1)]
    let env : Assignment := fun name => if name = "x" then 5 else 2
    e.WellFormed ∧ e.Arithmetic ∧ e.value? 32 env = some 20 ∧
      (simplifyWith .default {} e).toOption.map Outcome.expr = some e' ∧
      e'.value? 32 env = some 20 := by
  have hrun : ∃ o, simplifyWith .default {} (.nary .add [(.symbol "x", 2),
      (.nary .mul [(.symbol "x", 1), (.symbol "y", 1)], 1)]) = .ok o ∧
      o.expr = .nary .mul [(.symbol "x", 1), (.nary .add [(.int 2, 1), (.symbol "y", 1)], 1)] :=
    ⟨_, rfl, rfl⟩
  refine ⟨by decide, by decide, rfl, rfl, ?_⟩
  obtain ⟨o, h, hexpr⟩ := hrun
  have hkept := value?_of_simplifyWith (by decide) (by decide) h
    (rfl : Expr.value? 32 (fun name => if name = "x" then 5 else 2) _ = some 20)
  rw [hexpr] at hkept
  exact hkept

end Engine
end Symbolic
