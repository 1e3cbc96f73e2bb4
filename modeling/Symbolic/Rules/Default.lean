import Symbolic.Rules.Comparison
import Symbolic.Rules.Factoring
import Symbolic.Rules.Folding
import Symbolic.Rules.Semigroup

/-! The default rules. -/
namespace Symbolic

/-- Structure comes first, so that folding sees flat constants, and factoring comes last, so that
it sees folded terms. -/
def Rules.all : List Rule :=
  semigroupFamily ++ foldingFamily ++ comparisonFamily ++ factoringFamily

def Registry.default : Registry := .ofRules Rules.all

end Symbolic
