import Symbolic.Machine
import Symbolic.Rules.Sample
import Symbolic.Tree.Sample

/-! A session: named expressions, a configuration and a registry that grows rule by rule. -/
namespace Symbolic

structure Session where
  named : List (String × Expr) := []
  config : Config := {}
  registry : Registry := .empty

inductive SessionError
  | noExpression (name : String)
  | noRule (name : String)
  | notAnOperation
  | failed (cause : SimplifyError)
  /-- The process ends without an answer. -/
  | halted

namespace Tree

def Step.step? (step : Step) : Option Symbolic.Step := do
  return ⟨step.rule, ← step.before.expr?, ← step.after.expr?⟩

/-- The failure with its trees as expressions, if all of them are. -/
def Failure.simplifyError? : Failure → Option SimplifyError
  | .construction cause => some (.construction cause)
  | .undefinedOperation op cause => some (.undefinedOperation op cause)
  | .nonTerminating limit recent => (recent.mapM Step.step?).map (.nonTerminating limit)
  | .tooDeep limit => some (.tooDeep limit)

end Tree

def Exit.sessionError : Exit → SessionError
  | .failed cause => (cause.simplifyError?.map .failed).getD .halted
  | .halted _ => .halted

/-- The tree that an attempt gives, as an expression. -/
def Attempt.expr (result : Attempt Tree) : Except SessionError Expr :=
  match result with
  | .error exit => .error exit.sessionError
  | .ok t => (t.expr?.map .ok).getD (.error .halted)

/-- What applying a rule to a node shows. The rewrite is tried whether or not the rule applies. -/
structure Trial where
  covers : Bool
  applies : Bool
  rewritten : Except SessionError Expr

def Tree.Rule.trial (rule : Tree.Rule) (ctx : Context) (e : Expr) : Except SessionError Trial :=
  match e.op?, rule.applies ctx (.ofExpr e) with
  | none, _ => .error .notAnOperation
  | some _, .error exit => .error exit.sessionError
  | some op, .ok applies =>
    .ok ⟨rule.trigger.covers op, applies, Attempt.expr (rule.rewrite ctx (.ofExpr e))⟩

/-- A registry with the rules that the names stand for, up to the first name that has none. -/
def Registry.registerNamed (registry : Registry) : List String → Registry × Option SessionError
  | [] => (registry, none)
  | name :: rest =>
    match Rules.collection? name with
    | some rules => (registry.registerAll rules).registerNamed rest
    | none => (registry, some (.noRule name))

/-- The rules of a registry as they rewrite trees, found by their names. -/
def Registry.onTrees (registry : Registry) : List Tree.Rule :=
  registry.rules.filterMap fun rule => Tree.Rules.named? rule.name

/-- What simplifying an expression shows. -/
structure Simplified where
  expr : Expr
  statistics : Statistics

/-- Simplifies an expression. No run goes on for more rounds than the limit and one. -/
def Registry.simplify (registry : Registry) (config : Config) (e : Expr) :
    Except SessionError Simplified :=
  let machine : Machine := ⟨registry.onTrees, config⟩
  match machine.simplify (config.maxSteps + 1) (.ofExpr e) with
  | none => .error .halted
  | some (.error exit) => .error exit.sessionError
  | some (.ok (normal, statistics)) =>
    (Attempt.expr (.ok normal)).map fun expr => ⟨expr, statistics⟩

namespace Session

def lookup (session : Session) (name : String) : Except SessionError Expr :=
  match session.named.lookup name with
  | some e => .ok e
  | none => .error (.noExpression name)

/-- Names an expression, in place of one that had the name. -/
def define (session : Session) (name : String) (e : Expr) : Session :=
  { session with named := (name, e) :: session.named.filter fun entry => entry.1 ≠ name }

/-- Replaces a named expression by its simplification. A failure leaves it. -/
def simplify (session : Session) (name : String) : Except SessionError (Simplified × Session) := do
  let e ← session.lookup name
  let simplified ← session.registry.simplify session.config e
  return (simplified, session.define name simplified.expr)

/-- Tries a rule on a named expression as a root. -/
def trial (session : Session) (name rule : String) : Except SessionError Trial := do
  let e ← session.lookup name
  match Tree.Rules.named? rule with
  | none => .error (.noRule rule)
  | some rule => rule.trial ⟨none, session.config⟩ e

end Session
end Symbolic
