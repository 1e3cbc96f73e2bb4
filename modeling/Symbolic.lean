import Symbolic.Entries
import Symbolic.Expr.Frame
import Symbolic.Expr.Grouping
import Symbolic.Expr.Leaves
import Symbolic.Expr.Place
import Symbolic.Expr.Sharing
import Symbolic.Expr.Storage
import Symbolic.Expr.Value
import Symbolic.Expr.WellFormed
import Symbolic.Machine
import Symbolic.NormalForm
import Symbolic.Session
import Symbolic.Tree.Storage
import Symbolic.Proofs.Bag
import Symbolic.Proofs.Entries
import Symbolic.Proofs.KeptMultisets
import Symbolic.Proofs.Children
import Symbolic.Proofs.Display
import Symbolic.Proofs.FirstRewrite
import Symbolic.Proofs.MemoSound
import Symbolic.Proofs.RunSound
import Symbolic.Proofs.RunComplete
import Symbolic.Proofs.MemoTransparent
import Symbolic.Proofs.Rewrites
import Symbolic.Proofs.Trees
import Symbolic.Proofs.TreeBuilding
import Symbolic.Proofs.TreeRules
import Symbolic.Proofs.TreeComparison
import Symbolic.Proofs.TreeFactoring
import Symbolic.Proofs.TreeSample
import Symbolic.Proofs.RewritesOnTrees
import Symbolic.Proofs.RunsOnTrees
import Symbolic.Proofs.Raises
import Symbolic.Proofs.Legal
import Symbolic.Proofs.Factors
import Symbolic.Proofs.Weight
import Symbolic.Proofs.Sign
import Symbolic.Proofs.FoldedWeight
import Symbolic.Proofs.Lighter
import Symbolic.Proofs.Ranking
import Symbolic.Proofs.Heavy
import Symbolic.Proofs.Termination
import Symbolic.Proofs.Total
import Symbolic.Proofs.Reading
import Symbolic.Proofs.Meaning
import Symbolic.Proofs.Exact
import Symbolic.Proofs.NaryValues
import Symbolic.Proofs.ComparisonValues
import Symbolic.Proofs.Related
import Symbolic.Proofs.ValuePreserved
import Symbolic.Proofs.Reduced
import Symbolic.Proofs.CommonFactor
import Symbolic.Proofs.Compositional
import Symbolic.Proofs.Idempotent
import Symbolic.Proofs.DepthBounds
import Symbolic.Proofs.Surfaces
import Symbolic.Proofs.RunFails
import Symbolic.Proofs.TruthPreserved
import Symbolic.Proofs.TooLarge
import Symbolic.Proofs.Passes
import Symbolic.Proofs.MachineParts
import Symbolic.Proofs.Halting
import Symbolic.Proofs.Limits
import Symbolic.Proofs.Equality
import Symbolic.Proofs.WellStored
import Symbolic.Proofs.TreeStorage
import Symbolic.Proofs.Sessions
import Symbolic.Proofs.Desugaring
import Symbolic.Proofs.Ground
import Symbolic.Proofs.Combination
import Symbolic.Proofs.Parts
import Symbolic.Proofs.Nesting
import Symbolic.Proofs.Progress
import Symbolic.Proofs.RuleValues
import Symbolic.Proofs.Negation
import Symbolic.Proofs.Powers
import Symbolic.Proofs.Conjunctions
import Symbolic.Proofs.Grouping
import Symbolic.Proofs.Flattening
import Symbolic.Proofs.Unordered
import Symbolic.Proofs.Multiplicities
import Symbolic.Proofs.MappedChildren
import Symbolic.Proofs.Division
import Symbolic.Proofs.Exponentiation
import Symbolic.Proofs.Accumulation
import Symbolic.Proofs.Rotation
import Symbolic.Proofs.Sharing
