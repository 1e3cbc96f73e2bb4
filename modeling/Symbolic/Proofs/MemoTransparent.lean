import Symbolic.Proofs.Registry
import Symbolic.Proofs.RunComplete

/-! The memo does not change answers: a run that looks nothing up finds the same. -/
namespace Symbolic.Engine

variable {registry : Registry} {config config' : Config} {e : Expr}

theorem rewrite?_of_ignoresLimits (hr : registry.IgnoresLimits)
    (hw : config.wordBits = config'.wordBits) (recalls recalls' : Bool) (parent : Option Operator)
    (e : Expr) :
    rewrite? ⟨registry, config, recalls⟩ parent e =
      rewrite? ⟨registry, config', recalls'⟩ parent e := by
  simp only [rewrite?]
  cases e.op? with
  | none => rfl
  | some op =>
    exact firstRewrite_congr fun rule hm =>
      hr rule (Registry.mem_rules_of_mem_candidates hm) parent config config' e hw

/-- What a run without lookups finds, a run with them finds under the same limits. -/
theorem exists_simplifyWith_of_plain {o : Outcome}
    (h : (run ⟨registry, config, false⟩ e).1 = .ok o) :
    ∃ o', simplifyWith registry config e = .ok o' ∧ o'.expr = o.expr ∧ o'.steps ≤ o.steps := by
  obtain ⟨reach, steps, hran⟩ := ran_of_run_eq_ok (Prod.ext h rfl)
  obtain ⟨rfl, hsteps, hagain⟩ := hran.plain rfl
  have same (parent : Option Operator) (e : Expr) :
      rewrite? ⟨registry, config, true⟩ parent e = rewrite? ⟨registry, config, false⟩ parent e :=
        rfl
  have hnorm := hran.normalizes.congr same
  obtain ⟨o', t, hrun, hexpr⟩ := run_of_normalizes hnorm hran.shallow
    (by have := hran.within; dsimp only at this ⊢; omega) (hagain.imp_right fun h => h.congr same)
  refine ⟨o', by rw [simplifyWith, hrun], hexpr, ?_⟩
  obtain ⟨reach', steps', hran'⟩ := ran_of_run_eq_ok hrun
  obtain ⟨_, rfl⟩ := hran'.normalizes.deterministic hnorm
  rw [hsteps]
  exact hran'.steps_le

/-- Limits that are large enough allow a run to find the normal form. -/
theorem exists_limits_of_normalizes {recalls : Bool} {levels steps : Nat} {n : Expr}
    (hr : registry.IgnoresLimits) (h : Normalizes ⟨registry, config, recalls⟩ levels none e n steps)
    (recalls' : Bool) :
    ∃ steps depth, ∀ maxSteps maxDepth, steps ≤ maxSteps → depth ≤ maxDepth →
      ∃ o, (run ⟨registry, { config with maxSteps, maxDepth }, recalls'⟩ e).1 = .ok o ∧
        o.expr = n := by
  refine ⟨steps, max levels (max e.depth n.depth), fun maxSteps maxDepth hsteps hdepth => ?_⟩
  have hw : Config.wordBits { config with maxSteps, maxDepth } = config.wordBits := rfl
  have same := rewrite?_of_ignoresLimits hr hw recalls' recalls
  have hlevels : levels ≤ maxDepth := by omega
  have hnorm := (h.congr same).mono hlevels
  obtain ⟨o, t, hrun, hexpr⟩ := run_of_normalizes hnorm (by dsimp only; omega) hsteps
    (Or.inr (hnorm.normalForm.normalizes (by dsimp only; omega)))
  exact ⟨o, by rw [hrun], hexpr⟩

/-- What a run with lookups finds, a run without them finds under limits that are large enough. -/
theorem exists_plain_of_simplifyWith {o : Outcome} (hr : registry.IgnoresLimits)
    (h : simplifyWith registry config e = .ok o) :
    ∃ steps depth, ∀ maxSteps maxDepth, steps ≤ maxSteps → depth ≤ maxDepth →
      ∃ o', (run ⟨registry, { config with maxSteps, maxDepth }, false⟩ e).1 = .ok o' ∧
        o'.expr = o.expr := by
  obtain ⟨reach, steps, hran⟩ := ran_of_simplifyWith_eq_ok h
  exact exists_limits_of_normalizes hr hran.normalizes false

/-- Looking normal forms up costs no run its outcome, and wins it none but by the limits. -/
theorem run_with_and_without_memo (registry : Registry) (hr : registry.IgnoresLimits)
    (config : Config) (e : Expr) :
    (∀ o, (run ⟨registry, config, false⟩ e).1 = .ok o →
      ∃ o', simplifyWith registry config e = .ok o' ∧ o'.expr = o.expr ∧ o'.steps ≤ o.steps) ∧
    (∀ o, simplifyWith registry config e = .ok o →
      ∃ steps depth, ∀ maxSteps maxDepth, steps ≤ maxSteps → depth ≤ maxDepth →
        ∃ o', (run ⟨registry, { config with maxSteps, maxDepth }, false⟩ e).1 = .ok o' ∧
          o'.expr = o.expr) := by
  constructor
  · intro o h
    exact exists_simplifyWith_of_plain h
  · intro o h
    exact exists_plain_of_simplifyWith hr h

/-- The memo saves the rewrites of the second `x + x`. -/
theorem run_with_and_without_memo_of_repeated_argument :
    let e := Expr.call (.symbol "f") [.nary .add [(.symbol "x", 2)], .nary .add [(.symbol "x", 2)]]
    Registry.default.IgnoresLimits ∧
    (run ⟨.default, {}, false⟩ e).1.toOption.map Outcome.steps = some 4 ∧
    ∃ o, simplifyWith .default {} e = .ok o ∧ o.steps ≤ 4 := by
  refine ⟨Registry.ignoresLimits_default, rfl, ?_⟩
  obtain ⟨hfound, _⟩ := run_with_and_without_memo .default Registry.ignoresLimits_default {}
    (.call (.symbol "f") [.nary .add [(.symbol "x", 2)], .nary .add [(.symbol "x", 2)]])
  obtain ⟨o, ho, _, hsteps⟩ := hfound ⟨_, _, 2⟩ rfl
  exact ⟨o, ho, hsteps⟩

end Symbolic.Engine
