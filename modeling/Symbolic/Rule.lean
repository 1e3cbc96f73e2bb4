import Symbolic.Expr.Text

/-! Rewrite rules: the operators they are offered, the context they see, and how they fail. -/
namespace Symbolic

structure Config where
  /-- How many rewrites a run may take. -/
  maxSteps : Nat := 10000
  /-- How many of the last rewrites a run that does not end reports. -/
  traceLength : Nat := 8
  /-- The word width of rotations. -/
  wordBits : Nat := defaultWordBits
  /-- The deepest expression that is traversed, whether given or built by rewrites. -/
  maxDepth : Nat := 256
deriving DecidableEq

/-- One rewrite of a node by a rule. -/
structure Step where
  rule : String
  before : Expr
  after : Expr
deriving DecidableEq

def Step.toText (step : Step) : String :=
  step.rule ++ ": " ++ step.before.toText ++ " => " ++ step.after.toText

inductive SimplifyError
  | construction (cause : ExprError)
  | undefinedOperation (op : Operator) (cause : NumericError)
  | nonTerminating (limit : Nat) (recent : List Step)
  | tooDeep (limit : Nat)
deriving DecidableEq

def SimplifyError.message : SimplifyError → String
  | .construction cause => cause.message
  | .undefinedOperation op cause => "undefined operation `" ++ op.tag ++ "`: " ++ cause.message
  | .nonTerminating limit recent =>
    "no fixpoint after " ++ toString limit ++ " rewrite steps; last steps: " ++
      "; ".intercalate (recent.map Step.toText)
  | .tooDeep limit => "expression nesting exceeds " ++ toString limit ++ " levels"

/-- The operators whose nodes a rule is offered. -/
inductive Trigger
  | operator (op : Operator)
  | anyOf (ops : List Operator)
  | ofClass (operatorClass : OperatorClass)
  | any
deriving DecidableEq

def Trigger.covers : Trigger → Operator → Bool
  | .operator target, op => target = op
  | .anyOf targets, op => targets.contains op
  | .ofClass operatorClass, op => op.operatorClass = operatorClass
  | .any, _ => true

/-- What a rule may know beyond the node: the operator above it and the configuration. -/
structure Context where
  parent : Option Operator
  config : Config

/-- A rule is two functions of the node and its context. A rewrite that gives the node back counts
as not applying. -/
structure Rule where
  name : String
  trigger : Trigger
  applies : Context → Expr → Bool
  rewrite : Context → Expr → Except SimplifyError Expr

end Symbolic
