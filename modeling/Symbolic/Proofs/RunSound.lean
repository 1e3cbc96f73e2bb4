import Symbolic.Proofs.MemoSound
import Symbolic.Simplify

/-! A whole run: its first pass finds a normal form, and a second one, if any, finds it
unchanged. -/
namespace Symbolic.Engine

/-- What a successful run knows of its outcome. Where nothing is looked up, the nesting and the
number of steps are those of the relation. -/
structure Ran (engine : Engine) (e : Expr) (o : Outcome) (reach steps : Nat) : Prop where
  normalizes : engine.Normalizes reach none e o.expr steps
  shallow : e.depth ≤ engine.config.maxDepth
  steps_le : o.steps ≤ steps
  within : o.steps ≤ engine.config.maxSteps
  passes_eq : o.passes = if o.steps = 0 then 1 else 2
  plain : engine.recalls = false → reach = engine.config.maxDepth ∧ o.steps = steps ∧
    (steps = 0 ∨ engine.Normalizes engine.config.maxDepth none o.expr o.expr 0)

variable {engine : Engine} {levels steps passes rounds : Nat} {parent : Option Operator}
  {e n : Expr} {o : Outcome} {s t : State}

/-- A pass forgets the normal forms, but neither the trace nor the limit. -/
theorem computes_pass
    (h : engine.normalize engine.config.maxDepth none e { s with memo := ∅ } = (.ok n, t)) :
    ∃ reach steps, (engine.recalls = false → reach = engine.config.maxDepth) ∧
      engine.Normalizes reach none e n steps ∧ engine.Spends s t steps := by
  obtain ⟨reach, steps, _, hplain, hnorm, hspend, _⟩ :=
    computing_normalize engine _ none e _ n t memoSound_empty h
  exact ⟨reach, steps, hplain, hnorm, hspend.recorded, hspend.remaining_le, hspend.le_add,
    hspend.exact⟩

/-- A pass over a normal form rewrites nothing. -/
theorem pass_of_normalForm (hn : engine.NormalForm none e)
    (h : engine.normalize engine.config.maxDepth none e { s with memo := ∅ } = (.ok n, t)) :
    n = e ∧ t.remaining = s.remaining ∧
      (engine.recalls = false → engine.Normalizes engine.config.maxDepth none e e 0) := by
  obtain ⟨reach, steps, hplain, hnorm, hspend⟩ := computes_pass h
  obtain ⟨rfl, rfl⟩ := hnorm.deterministic (hn.normalizes (Nat.le_refl _))
  refine ⟨rfl, ?_, fun hp => hplain hp ▸ hnorm⟩
  have := hspend.le_add
  have := hspend.remaining_le
  omega

theorem runPasses_of_normalForm (hn : engine.NormalForm none e)
    (h : engine.runPasses rounds passes e s = (.ok o, t)) :
    o = ⟨e, t.trace.reverse, passes + 1⟩ ∧ t.remaining = s.remaining ∧
      t.trace.length = s.trace.length ∧
      (engine.recalls = false → engine.Normalizes engine.config.maxDepth none e e 0) := by
  cases rounds with
  | zero => cases h
  | succ rounds =>
    simp only [runPasses_succ] at h
    obtain ⟨n, after, hpass, hrest⟩ := Ended.andThen_eq_ok.mp h
    obtain ⟨rfl, hsame, hplain⟩ := pass_of_normalForm hn hpass
    obtain ⟨_, _, _, _, hspend⟩ := computes_pass hpass
    rw [if_pos hsame] at hrest
    cases hrest
    have := hspend.recorded
    exact ⟨rfl, hsame, by omega, hplain⟩

theorem ran_of_run_eq_ok (h : engine.run e = (.ok o, t)) :
    ∃ reach steps, engine.Ran e o reach steps := by
  rw [run_eq] at h
  split at h
  · cases h
  · next hd =>
    have hd : e.depth ≤ engine.config.maxDepth := Nat.le_of_not_lt hd
    simp only [runPasses_succ] at h
    obtain ⟨n, after, hpass, hrest⟩ := Ended.andThen_eq_ok.mp h
    obtain ⟨reach, steps, hplain, hnorm, hspend⟩ := computes_pass hpass
    have hlength : after.trace.length + after.remaining = engine.config.maxSteps := by
      simpa [start] using hspend.recorded
    have hle : engine.config.maxSteps ≤ after.remaining + steps := hspend.le_add
    have hexact (hp : engine.recalls = false) : engine.config.maxSteps = after.remaining + steps :=
      hspend.exact hp
    refine ⟨reach, steps, ?_⟩
    split at hrest
    · next hsame =>
      cases hrest
      have hsame : t.remaining = engine.config.maxSteps := hsame
      have hsteps : Outcome.steps ⟨n, t.trace.reverse, 0 + 1⟩ = 0 := by
        simp only [Outcome.steps, List.length_reverse]
        omega
      refine ⟨hnorm, hd, by omega, by omega, by rw [hsteps, if_pos rfl], fun hp => ?_⟩
      have := hexact hp
      exact ⟨hplain hp, by omega, Or.inl (by omega)⟩
    · next hdiffers =>
      have hdiffers : after.remaining ≠ engine.config.maxSteps := hdiffers
      obtain ⟨rfl, hremaining, htrace, hagain⟩ := runPasses_of_normalForm hnorm.normalForm hrest
      have hsteps : Outcome.steps ⟨n, t.trace.reverse, 0 + 1 + 1⟩ = after.trace.length := by
        simp only [Outcome.steps, List.length_reverse, htrace]
      refine ⟨hnorm, hd, by omega, by omega, ?_, fun hp => ?_⟩
      · rw [if_neg (by omega)]
      · have := hexact hp
        exact ⟨hplain hp, by omega, Or.inr (hagain hp)⟩

theorem ran_of_simplifyWith_eq_ok {registry : Registry} {config : Config}
    (h : simplifyWith registry config e = .ok o) :
    ∃ reach steps, Ran ⟨registry, config, true⟩ e o reach steps := by
  have hrun : run ⟨registry, config, true⟩ e = (.ok o, (run ⟨registry, config, true⟩ e).2) :=
    Prod.ext h rfl
  exact ran_of_run_eq_ok hrun

theorem simplify_eq_ok_iff {e r : Expr} {config : Config} :
    simplify e config = .ok r ↔ ∃ o, simplifyWith .default config e = .ok o ∧ o.expr = r := by
  rw [simplify]
  cases simplifyWith .default config e <;> simp [Except.map]

theorem normalizes_of_simplify {e r : Expr} {config : Config} (h : simplify e config = .ok r) :
    ∃ levels steps, Normalizes ⟨.default, config, true⟩ levels none e r steps := by
  obtain ⟨o, hrun, rfl⟩ := simplify_eq_ok_iff.mp h
  obtain ⟨reach, steps, hran⟩ := ran_of_simplifyWith_eq_ok hrun
  exact ⟨reach, steps, hran.normalizes⟩

/-- The outcome of a simplification is a normal form of the registry. -/
theorem normalForm_of_simplifyWith {registry : Registry} {config : Config}
    (h : simplifyWith registry config e = .ok o) :
    NormalForm ⟨registry, config, true⟩ none o.expr := by
  obtain ⟨reach, steps, hran⟩ := ran_of_simplifyWith_eq_ok h
  exact hran.normalizes.normalForm

/-- `x + x` becomes `x * 2`, which no default rule rewrites. -/
theorem normalForm_of_doubled_symbol :
    (simplifyWith .default {} (.nary .add [(.symbol "x", 2)])).toOption.map Outcome.expr =
      some (.nary .mul [(.int 2, 1), (.symbol "x", 1)]) ∧
    NormalForm ⟨.default, {}, true⟩ none (.nary .mul [(.int 2, 1), (.symbol "x", 1)]) := by
  have hrun : ∃ o, simplifyWith .default {} (.nary .add [(.symbol "x", 2)]) = .ok o ∧
      o.expr = .nary .mul [(.int 2, 1), (.symbol "x", 1)] := ⟨_, rfl, rfl⟩
  refine ⟨rfl, ?_⟩
  obtain ⟨o, h, hexpr⟩ := hrun
  rw [← hexpr]
  exact normalForm_of_simplifyWith h

end Symbolic.Engine
