import Symbolic.Engine
import Symbolic.Rules.Default

/-! Simplification by a registry of rules, the default one unless another is given. -/
namespace Symbolic

def simplifyWith (registry : Registry) (config : Config) (e : Expr) :
    Except SimplifyError Engine.Outcome :=
  (Engine.run ⟨registry, config, true⟩ e).1

def simplify (e : Expr) (config : Config := {}) : Except SimplifyError Expr :=
  (simplifyWith .default config e).map Engine.Outcome.expr

end Symbolic
