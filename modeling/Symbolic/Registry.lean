import Symbolic.Rule

/-! Rules in the order of their registration, indexed by the operators they are offered. -/
namespace Symbolic

/-- For each operator, in the order of `Operator.all`, the positions of the rules it is offered. -/
structure Registry where
  rules : List Rule
  dispatch : List (List Nat)

namespace Registry

def empty : Registry := ⟨[], Operator.all.map fun _ => []⟩

/-- Appends a rule, which is tried after those that are there. -/
def register (registry : Registry) (rule : Rule) : Registry where
  rules := registry.rules ++ [rule]
  dispatch := List.zipWith
    (fun op positions =>
      if rule.trigger.covers op then positions ++ [registry.rules.length] else positions)
    Operator.all registry.dispatch

def registerAll (registry : Registry) (rules : List Rule) : Registry :=
  rules.foldl register registry

def ofRules (rules : List Rule) : Registry := empty.registerAll rules

/-- The rules that a node is offered, the first registered first. -/
def candidates (registry : Registry) (op : Operator) : List Rule :=
  (registry.dispatch[op.index]?.getD []).filterMap fun position => registry.rules[position]?

/-- The rules read nothing of a configuration but the word width. -/
def IgnoresLimits (registry : Registry) : Prop :=
  ∀ rule ∈ registry.rules, ∀ (parent : Option Operator) (config config' : Config) (e : Expr),
    config.wordBits = config'.wordBits →
      rule.applies ⟨parent, config⟩ e = rule.applies ⟨parent, config'⟩ e ∧
      rule.rewrite ⟨parent, config⟩ e = rule.rewrite ⟨parent, config'⟩ e

/-- The rules read nothing of the operator above a node. -/
def IgnoresParent (registry : Registry) : Prop :=
  ∀ rule ∈ registry.rules, ∀ (parent parent' : Option Operator) (config : Config) (e : Expr),
    rule.applies ⟨parent, config⟩ e = rule.applies ⟨parent', config⟩ e ∧
    rule.rewrite ⟨parent, config⟩ e = rule.rewrite ⟨parent', config⟩ e

def size (registry : Registry) : Nat := registry.rules.length

def names (registry : Registry) : List String := registry.rules.map Rule.name

/-- A name between double quotes, with escapes where a quoted text needs them. -/
def quoted (name : String) : String :=
  let escape (c : Char) : List Char := if c = '"' || c = '\\' then ['\\', c] else [c]
  "\"" ++ String.ofList (name.toList.flatMap escape) ++ "\""

def debugText (registry : Registry) : String :=
  "RuleRegistry \x7b rules: [" ++ ", ".intercalate (registry.names.map quoted) ++ "] \x7d"

end Registry
end Symbolic
