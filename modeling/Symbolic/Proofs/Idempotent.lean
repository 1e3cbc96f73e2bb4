import Symbolic.Proofs.RunComplete

/-! A run over a normal form rewrites nothing, so that simplification is idempotent. -/
namespace Symbolic.Engine

variable {engine : Engine} {registry : Registry} {config : Config} {e : Expr} {o : Outcome}

/-- The first pass over a normal form is the last one. -/
theorem run_of_normalForm (hn : engine.NormalForm none e) (hd : e.depth ≤ engine.config.maxDepth) :
    (engine.run e).1 = .ok ⟨e, [], 1⟩ := by
  obtain ⟨after, hpass, hspend⟩ := (hn.normalizes hd).pass (s := engine.start) (Nat.zero_le _)
  have hsame : after.remaining = engine.start.remaining :=
    Nat.le_antisymm hspend.remaining_le hspend.le_add
  have htrace : after.trace = [] := by
    have hrecorded := hspend.recorded
    simp only [start, List.length_nil] at hrecorded hsame
    exact List.eq_nil_of_length_eq_zero (by omega)
  rw [run_eq, if_neg (Nat.not_lt_of_le hd), runPasses_succ, hpass, Ended.andThen_ok, if_pos hsame,
    htrace]
  rfl

/-- An expression that is deeper than the bound is refused before the first pass. -/
theorem run_of_maxDepth_lt (hd : engine.config.maxDepth < e.depth) :
    (engine.run e).1 = .error engine.tooDeep := by
  rw [run_eq, if_pos hd]

/-- Whatever the rules, simplifying an outcome again gives it back in one pass without a rewrite,
unless it has become too deep. -/
theorem simplifyWith_again (h : simplifyWith registry config e = .ok o)
    (hd : o.expr.depth ≤ config.maxDepth) :
    ∃ again, simplifyWith registry config o.expr = .ok again ∧ again.expr = o.expr ∧
      again.steps = 0 ∧ again.passes = 1 ∧ again.simplified = false ∧ again.ruleHits = [] := by
  obtain ⟨reach, steps, hran⟩ := ran_of_simplifyWith_eq_ok h
  exact ⟨_, run_of_normalForm hran.normalizes.normalForm hd, rfl, rfl, rfl, rfl, rfl⟩

/-- `x != 0` becomes `!!x` and stays it. -/
theorem simplifyWith_again_of_negated_twice :
    (simplifyWith .default {} (.binary .ne (.symbol "x") (.int 0))).toOption.map Outcome.expr =
      some (.unary .not (.unary .not (.symbol "x"))) ∧
    ∃ again, simplifyWith .default {} (.unary .not (.unary .not (.symbol "x"))) = .ok again ∧
      again.expr = .unary .not (.unary .not (.symbol "x")) ∧ again.steps = 0 := by
  have hrun : ∃ o, simplifyWith .default {} (.binary .ne (.symbol "x") (.int 0)) = .ok o ∧
      o.expr = .unary .not (.unary .not (.symbol "x")) := ⟨_, rfl, rfl⟩
  refine ⟨rfl, ?_⟩
  obtain ⟨o, h, hexpr⟩ := hrun
  obtain ⟨again, hagain, hsame, hsteps, _⟩ := simplifyWith_again h (by rw [hexpr]; decide)
  rw [hexpr] at hagain hsame
  exact ⟨again, hagain, hsame, hsteps⟩

end Symbolic.Engine
