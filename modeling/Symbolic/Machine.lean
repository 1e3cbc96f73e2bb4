import Symbolic.Tree.Rules

/-! Rewriting to a fixpoint as it runs: with a buffer of recent rewrites, with counters in machine
words, and with loops that are followed for a number of rounds. -/
namespace Symbolic

/-- What a run counts. -/
structure Statistics where
  steps : Nat := 0
  passes : Nat := 0
  simplified : Bool := false
  ruleHits : Entries String := []
deriving DecidableEq

namespace Machine

/-- What a run has to show for its rewrites. -/
structure Progress where
  /-- The last rewrites, the oldest one first. -/
  recent : List Tree.Step := []
  statistics : Statistics := {}
  /-- Whether the pass has rewritten anything. -/
  fired : Bool := false

/-- What a run remembers. -/
structure State extends Progress where
  /-- Normal forms that the pass has found, by the operator above them. -/
  memo : List ((Option Operator × Tree) × Tree) := []

/-- Parts of a run; a part with a loop that goes on for more rounds is `none`. -/
abbrev Run := ExceptT Exit (StateT State Option)

/-- A step at the end of a buffer. In a full one it takes the place of the oldest. -/
def push (capacity : Nat) (recent : List Tree.Step) (step : Tree.Step) : List Tree.Step :=
  if 0 < capacity then
    (if recent.length = capacity then recent.tail else recent) ++ [step]
  else recent

/-- One rewrite more, for its rule. -/
def count? (rule : String) (statistics : Statistics) : Option Statistics := do
  let steps ← wordSum? statistics.steps 1
  let ruleHits ← Entries.insert? rule statistics.ruleHits
  return { statistics with steps, ruleHits }

def Progress.after? (capacity : Nat) (step : Tree.Step) (progress : Progress) : Option Progress :=
  (count? step.rule progress.statistics).map fun statistics =>
    { recent := push capacity progress.recent step, statistics, fired := true }

end Machine

/-- Rules, the first one first, and a configuration. -/
structure Machine where
  rules : List Tree.Rule
  config : Config

namespace Machine

variable (machine : Machine)

def tooDeep : Exit := .failed (.tooDeep machine.config.maxDepth)

/-- Counts and remembers a rewrite. The one beyond the limit is recorded too before the run fails,
and the failure takes the buffer. -/
def record (step : Tree.Step) : Run Unit := do
  let capacity := machine.config.traceLength
  let progress ← liftM (Attempt.orHalt .counter ((← get).after? capacity step))
  modify fun s => { s with toProgress := progress }
  if machine.config.maxSteps < progress.statistics.steps then
    modify fun s => { s with recent := [] }
    throw (.failed (.nonTerminating machine.config.maxSteps progress.recent))

/-- The rewrite by the first rule that applies and changes the node. A rule that fails ends the
search. -/
def firstRewrite (ctx : Context) (t : Tree) : List Tree.Rule → Attempt (Option Tree.Step)
  | [] => return none
  | rule :: rest => do
    if ← rule.applies ctx t then
      let next ← rule.rewrite ctx t
      if next = t then firstRewrite ctx t rest else return some ⟨rule.name, t, next⟩
    else firstRewrite ctx t rest

/-- The first rewrite of a node under an operator. Atoms have none. -/
def rewrite? (parent : Option Operator) (t : Tree) : Attempt (Option Tree.Step) :=
  match t.op? with
  | none => return none
  | some op => firstRewrite ⟨parent, machine.config⟩ t (Tree.candidates machine.rules op)

/-- A child in normal form, and whether it is another one than before. -/
def replace (normalize : Tree → Run Tree) (t : Tree) : StateT Bool Run Tree := do
  let next ← normalize t
  modify fun changed => changed || next ≠ t
  return next

/-- The node over the normal forms of its children. -/
def normalizeChildren (normalize : Option Operator → Tree → Run Tree) (t : Tree) : Run Tree := do
  let (rebuilt, changed) ← (t.mapChildren (replace (normalize t.op?))).run false
  return if changed then rebuilt else t

/-- Normalizes the children and rewrites the node, until no rule rewrites it. -/
def settle (normalize : Option Operator → Tree → Run Tree) (parent : Option Operator) :
    Nat → Tree → Run Tree
  | 0, _ => fun _ => none
  | rounds + 1, t => do
    let t ← normalizeChildren normalize t
    match ← liftM (machine.rewrite? parent t) with
    | none => return t
    | some step => do
      machine.record step
      settle normalize parent rounds step.after

/-- Remembers a normal form for itself and for the node it was found for. -/
def remember (parent : Option Operator) (t normal : Tree) (s : State) : State :=
  { s with memo := ((parent, t), normal) :: ((parent, normal), normal) :: s.memo }

/-- The normal form of a tree under an operator, for a number of levels of operations that may still
be entered. -/
def normalize (rounds : Nat) : Nat → Option Operator → Tree → Run Tree
  | 0, _, t => if t.isAtomic then return t else throw machine.tooDeep
  | levels + 1, parent, t => do
    if t.isAtomic then return t
    match (← get).memo.lookup (parent, t) with
    | some normal => return normal
    | none => do
      let normal ← settle machine (normalize rounds levels) parent rounds t
      modify (remember parent t normal)
      return normal

/-- A pass begins with no normal forms. -/
def State.inPass (passes : Nat) (s : State) : State :=
  { s with memo := [], fired := false, statistics := { s.statistics with passes } }

def beginPass : Run Unit := do
  let passes ← liftM (Attempt.orHalt .counter (wordSum? (← get).statistics.passes 1))
  modify (·.inPass passes)

def State.finished (s : State) : State :=
  { s with statistics := { s.statistics with simplified := 0 < s.statistics.steps } }

/-- Passes over the tree until one rewrites nothing. -/
def runPasses (rounds : Nat) : Nat → Tree → Run Tree
  | 0, _ => fun _ => none
  | left + 1, t => do
    beginPass
    let next ← machine.normalize rounds machine.config.maxDepth none t
    if (← get).fired then runPasses rounds left next
    else do
      modify State.finished
      return next

/-- A whole run. A tree deeper than the bound is not entered. -/
def run (rounds : Nat) (t : Tree) : Run Tree := do
  if machine.config.maxDepth < t.depth then throw machine.tooDeep
  machine.runPasses rounds rounds t

/-- A step is a text, as a pointer and a length, beside two trees, as a pointer each. -/
def stepBytes : Nat := 32

-- The power is that of the core library, whichever modules stand beside this one.
attribute [local instance (1100)] instPowNat

/-- The size of the largest piece of memory that can be asked for. -/
def maxBytes : Nat := 2 ^ (63 : Nat) - 1

/-- The buffer is made before the tree is looked at, with room for all that it may hold. -/
def simplify (rounds : Nat) (t : Tree) : Option (Attempt (Tree × Statistics)) :=
  if maxBytes < machine.config.traceLength * stepBytes then
    some (.error (.halted .capacity))
  else
    match machine.run rounds t {} with
    | none => none
    | some (.ok normal, s) => some (.ok (normal, s.statistics))
    | some (.error exit, _) => some (.error exit)

/-- The same machine with room for every rewrite that the limit allows, and for the one beyond. -/
def roomy : Machine :=
  { machine with config := { machine.config with traceLength := machine.config.maxSteps + 1 } }

/-- All the rewrites of a run, the oldest one first, as a buffer with room for them shows them. -/
def rewrites (rounds : Nat) (t : Tree) : List Tree.Step :=
  match machine.roomy.run rounds t {} with
  | some (_, s) => s.recent
  | none => []

end Machine
end Symbolic
