import Symbolic.Engine
import Symbolic.Expr.Occurrence

/-! What no rule of a registry rewrites, said without a run. -/
namespace Symbolic.Engine

variable (engine : Engine)

/-- Each rule that a node is offered under an operator does not apply or gives the node back. -/
def Settled (parent : Option Operator) (e : Expr) : Prop :=
  ∀ op ∈ e.op?, ∀ rule ∈ engine.registry.candidates op,
    rule.applies ⟨parent, engine.config⟩ e = true →
      rule.rewrite ⟨parent, engine.config⟩ e = .ok e

/-- Every node of the expression is settled where it stands. -/
def NormalForm (parent : Option Operator) (e : Expr) : Prop :=
  ∀ occurrence ∈ e.occurrences parent, engine.Settled occurrence.1 occurrence.2

end Symbolic.Engine
