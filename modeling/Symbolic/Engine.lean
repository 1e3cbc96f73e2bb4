import Std.Data.TreeMap
import Symbolic.Expr.Children
import Symbolic.Expr.Height
import Symbolic.Expr.Occurrence
import Symbolic.Registry

/-! Bottom-up rewriting to a fixpoint, with a memo, a bound on rewrites and a bound on depth. All
rewrites are kept, and what is counted is read off them; a machine that counts them one by one and
keeps the last ones in a buffer shows the same. -/
namespace Symbolic

/-- Normal forms that a pass has found. -/
abbrev Memo := Std.TreeMap Occurrence Expr Occurrence.compare

/-- What a run remembers. -/
structure State where
  memo : Memo
  /-- The rewrites so far, the last one first. -/
  trace : List Step
  /-- How many more rewrites are allowed. -/
  remaining : Nat

/-- The end of a part of a run: a value or a failure, and the state it leaves. -/
abbrev Ended (α : Type) := Except SimplifyError α × State

structure Engine where
  registry : Registry
  config : Config
  /-- Whether normal forms are looked up before they are computed. -/
  recalls : Bool := true

namespace Engine

variable (engine : Engine)

def tooDeep : SimplifyError := .tooDeep engine.config.maxDepth

/-- The failure of a run that takes too many rewrites, with the last ones in their order. -/
def nonTerminating (trace : List Step) : SimplifyError :=
  .nonTerminating engine.config.maxSteps (trace.take engine.config.traceLength).reverse

def recalled? (state : State) (occurrence : Occurrence) : Option Expr :=
  if engine.recalls then state.memo[occurrence]? else none

/-- Records a rewrite. The one beyond the bound is recorded too before the run fails. -/
def record (step : Step) (state : State) : Ended Unit :=
  let trace := step :: state.trace
  match state.remaining with
  | 0 => (.error (engine.nonTerminating trace), { state with trace })
  | remaining + 1 => (.ok (), { state with trace, remaining })

/-- The rewrite by the first rule that applies and changes the node. A rule that fails ends the
search. -/
def firstRewrite (ctx : Context) (e : Expr) : List Rule → Except SimplifyError (Option Step)
  | [] => .ok none
  | rule :: rest =>
    if rule.applies ctx e then
      match rule.rewrite ctx e with
      | .error err => .error err
      | .ok next => if next = e then firstRewrite ctx e rest else .ok (some ⟨rule.name, e, next⟩)
    else firstRewrite ctx e rest

/-- The first rewrite of a node under an operator. Atoms have none. -/
def rewrite? (parent : Option Operator) (e : Expr) : Except SimplifyError (Option Step) :=
  match e.op? with
  | none => .ok none
  | some op => firstRewrite ⟨parent, engine.config⟩ e (engine.registry.candidates op)

/-- Normalizes expressions from the left, up to the first failure. -/
def normalizeList (normalize : Expr → State → Ended Expr) :
    List Expr → State → Ended (List Expr)
  | [], state => (.ok [], state)
  | e :: rest, state =>
    match normalize e state with
    | (.error err, state) => (.error err, state)
    | (.ok e', state) =>
      match normalizeList normalize rest state with
      | (.error err, state) => (.error err, state)
      | (.ok rest', state) => (.ok (e' :: rest'), state)

/-- The node over the normal forms of its children. -/
def normalizeChildren (normalize : Option Operator → Expr → State → Ended Expr) (e : Expr)
    (state : State) : Ended Expr :=
  match normalizeList (normalize e.op?) e.children state with
  | (.error err, state) => (.error err, state)
  | (.ok children, state) =>
    (.ok (if children = e.children then e else e.withChildren children), state)

/-- Normalizes the children and rewrites the node, until no rule rewrites it. Every round but the
last records a rewrite, so that rounds one more than the remaining rewrites never run out. -/
def settle (normalize : Option Operator → Expr → State → Ended Expr) (parent : Option Operator) :
    Nat → Expr → State → Ended Expr
  | 0, _, state => (.error (engine.nonTerminating state.trace), state)
  | rounds + 1, e, state =>
    match normalizeChildren normalize e state with
    | (.error err, state) => (.error err, state)
    | (.ok e, state) =>
      match engine.rewrite? parent e with
      | .error err => (.error err, state)
      | .ok none => (.ok e, state)
      | .ok (some step) =>
        match engine.record step state with
        | (.error err, state) => (.error err, state)
        | (.ok (), state) => settle normalize parent rounds step.after state

/-- Remembers a normal form for the node it was found for, and for itself. -/
def remember (parent : Option Operator) (e normal : Expr) (state : State) : State :=
  { state with memo := (state.memo.insert (parent, normal) normal).insert (parent, e) normal }

/-- The normal form of an expression under an operator, for a number of levels of operations that
may still be entered. -/
def normalize : Nat → Option Operator → Expr → State → Ended Expr
  | 0, _, e, state => if e.isAtomic then (.ok e, state) else (.error engine.tooDeep, state)
  | levels + 1, parent, e, state =>
    if e.isAtomic then (.ok e, state)
    else
      match engine.recalled? state (parent, e) with
      | some normal => (.ok normal, state)
      | none =>
        match settle engine (normalize levels) parent (state.remaining + 1) e state with
        | (.error err, state) => (.error err, state)
        | (.ok normal, state) => (.ok normal, remember parent e normal state)

/-- What a successful run gives. -/
structure Outcome where
  expr : Expr
  /-- The rewrites in their order. -/
  trace : List Step
  /-- The number of passes over the tree, the last one without rewrites. -/
  passes : Nat

/-- Passes over the whole tree until one rewrites nothing. Every pass but the last rewrites. -/
def runPasses : Nat → Nat → Expr → State → Ended Outcome
  | 0, _, _, state => (.error (engine.nonTerminating state.trace), state)
  | rounds + 1, passes, e, state =>
    match engine.normalize engine.config.maxDepth none e { state with memo := ∅ } with
    | (.error err, state) => (.error err, state)
    | (.ok e, after) =>
      if after.remaining = state.remaining then
        (.ok ⟨e, after.trace.reverse, passes + 1⟩, after)
      else runPasses rounds (passes + 1) e after

def start : State := ⟨∅, [], engine.config.maxSteps⟩

/-- A whole run with the state it leaves. A tree deeper than the bound is not entered. -/
def run (e : Expr) : Ended Outcome :=
  if e.deeperThan engine.config.maxDepth then (.error engine.tooDeep, engine.start)
  else engine.runPasses (engine.config.maxSteps + 1) 0 e engine.start

end Engine

namespace Engine.Outcome

def steps (outcome : Outcome) : Nat := outcome.trace.length

def simplified (outcome : Outcome) : Bool := 0 < outcome.steps

/-- How often each rule rewrote, for the rules that did. -/
def ruleHits (outcome : Outcome) : List (String × Nat) :=
  let names := outcome.trace.map Step.rule
  names.eraseDups.map fun name => (name, names.count name)

end Engine.Outcome

end Symbolic
