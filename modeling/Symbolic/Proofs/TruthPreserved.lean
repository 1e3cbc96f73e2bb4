import Symbolic.Proofs.ValuePreserved

/-! Simplification keeps the truth of an expression, though not its value: an operand that is left
alone under `&&` or `||` takes their place, and need not be a truth value. -/
namespace Symbolic.Engine

variable {e : Expr} {env : Assignment}

/-- Where `&&` and `||` stand only where truth counts, the result of a simplification by the default
rules stands for zero exactly if the expression does. -/
theorem truth_of_simplifyWith {config : Config} {o : Outcome} (hw : e.WellFormed)
    (hk : e.keepsPlaces .truth = true) (h : simplifyWith .default config e = .ok o) {v : Int}
    (hv : e.value? config.wordBits env = some v) :
    ∃ w, o.expr.value? config.wordBits env = some w ∧ (w = 0 ↔ v = 0) := by
  obtain ⟨reach, steps, hran⟩ := ran_of_simplifyWith_eq_ok h
  exact (hran.normalizes.accords rfl hw).exists_value? hk hv

/-- `x || x && y` becomes `x`: where `x` is 5 and `y` is 2, the one is 1 and the other one 5. -/
theorem truth_of_absorbed_conjunction :
    let x := Expr.symbol "x"
    let e := Expr.logicalOr x (.logicalAnd x (.symbol "y"))
    let env : Assignment := fun name => if name = "x" then 5 else 2
    e.WellFormed ∧ e.keepsPlaces .truth = true ∧ e.value? 32 env = some 1 ∧
      (simplifyWith .default {} e).toOption.map Outcome.expr = some x ∧ x.value? 32 env = some 5 ∧
      ∃ w, x.value? 32 env = some w ∧ (w = 0 ↔ (1 : Int) = 0) := by
  have hrun : ∃ o, simplifyWith .default {} (.logicalOr (.symbol "x")
      (.logicalAnd (.symbol "x") (.symbol "y"))) = .ok o ∧ o.expr = .symbol "x" := ⟨_, rfl, rfl⟩
  refine ⟨by decide, by decide, rfl, rfl, rfl, ?_⟩
  obtain ⟨o, h, hexpr⟩ := hrun
  have hkept := truth_of_simplifyWith (by decide) (by decide) h
    (rfl : Expr.value? 32 (fun name => if name = "x" then 5 else 2) _ = some 1)
  rw [hexpr] at hkept
  exact hkept

end Symbolic.Engine
