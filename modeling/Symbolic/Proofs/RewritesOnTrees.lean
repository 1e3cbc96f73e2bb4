import Symbolic.Proofs.MachineParts
import Symbolic.Proofs.Related
import Symbolic.Proofs.TreeFactoring

/-! One rewrite on trees: it is the one on expressions, and what is counted and kept of it can be
read off the trace. -/
namespace Symbolic.Machine

open Symbolic.Tree (ofExpr onTrees)

/-- A machine with the configuration of an engine, and with rules on trees that do what its rules
do. -/
structure Follows (machine : Machine) (engine : Engine) : Prop where
  config_eq : machine.config = engine.config
  recalls : engine.recalls = true
  indexed : engine.registry.Indexed
  refines : List.Forall₂ Tree.Rule.Refines machine.rules engine.registry.rules
  buildsWellFormed : engine.registry.BuildsWellFormed engine.config

/-- All that a state has to show for its rewrites can be read off a trace of them, the last one
first. -/
structure Shows (machine : Machine) (progress : Progress) (trace : List Step) : Prop where
  steps_eq : progress.statistics.steps = trace.length
  recent_eq : progress.recent =
    (trace.reverse.map Tree.Step.of).rtake machine.config.traceLength
  find?_eq : ∀ name, Entries.find? name progress.statistics.ruleHits =
    if name ∈ trace.map Step.rule then some ((trace.map Step.rule).count name) else none
  sum_ruleHits : (progress.statistics.ruleHits.map Prod.snd).sum = progress.statistics.steps

variable {machine : Machine} {engine : Engine} {parent : Option Operator} {e : Expr}
  {step : Step} {progress progress' : Progress} {trace : List Step}

/-! ## The rewrite -/

theorem follows_firstRewrite {rules : List Tree.Rule} {rules' : List Rule}
    (h : List.Forall₂ Tree.Rule.Refines rules rules') (ctx : Context) (he : e.WellFormed) :
    Symbolic.Follows (firstRewrite ctx (ofExpr e) rules)
      (onTrees (Option.map Tree.Step.of) (Engine.firstRewrite ctx e rules')) := by
  induction h with
  | nil => exact .ok _
  | @cons rule rule' rest rest' hrule _ ih =>
    rw [firstRewrite, Engine.firstRewrite]
    refine (hrule.applies ctx he).bind_ok ?_
    cases rule'.applies ctx e with
    | false => exact ih
    | true =>
      have hrewrite := hrule.rewrite ctx he
      simp only [if_true]
      cases hr : rule'.rewrite ctx e with
      | error err =>
        rw [hr] at hrewrite
        exact hrewrite.bind_failed
      | ok next =>
        rw [hr] at hrewrite
        refine hrewrite.bind_ok ?_
        dsimp only
        by_cases hsame : next = e
        · rw [if_pos (congrArg ofExpr hsame), if_pos hsame]
          exact ih
        · rw [if_neg fun h => hsame (Tree.ofExpr_injective h), if_neg hsame]
          exact .of_eq (by rw [hrule.name_eq]; rfl)

/-- The rules that a node is offered follow those that its expression is offered. -/
theorem Follows.candidates (h : machine.Follows engine) (op : Operator) :
    List.Forall₂ Tree.Rule.Refines (Tree.candidates machine.rules op)
      (engine.registry.candidates op) := by
  rw [Registry.candidates_of_indexed h.indexed, Tree.candidates]
  have hrules := h.refines
  generalize machine.rules = rules, engine.registry.rules = rules' at hrules
  induction hrules with
  | nil => exact .nil
  | @cons rule rule' rest rest' hrule _ ih =>
    rw [List.filter_cons, List.filter_cons, hrule.trigger_eq]
    split
    · exact .cons hrule ih
    · exact ih

theorem Follows.rewrite? (h : machine.Follows engine) (parent : Option Operator)
    (he : e.WellFormed) :
    Symbolic.Follows (machine.rewrite? parent (ofExpr e))
      (onTrees (Option.map Tree.Step.of) (engine.rewrite? parent e)) := by
  rw [Machine.rewrite?, Engine.rewrite?, Tree.op?_ofExpr]
  cases e.op? with
  | none => exact .ok _
  | some op =>
    rw [h.config_eq]
    exact follows_firstRewrite (h.candidates op) _ he

/-! ## What is counted and kept of it -/

/-- The last rewrites are the same whichever end they are taken from. -/
theorem rtake_reverse_map (trace : List Step) (n : Nat) :
    (trace.reverse.map Tree.Step.of).rtake n = ((trace.take n).reverse).map Tree.Step.of := by
  rw [List.rtake_eq_reverse_take_reverse, ← List.map_reverse, List.reverse_reverse,
    ← List.map_take, List.map_reverse]

theorem shows_start (machine : Machine) : machine.Shows {} [] where
  steps_eq := rfl
  recent_eq := by simp
  find?_eq := fun _ => rfl
  sum_ruleHits := rfl

/-- A rewrite counts for its rule and for no other. -/
theorem find?_count? {rule : String} {statistics statistics' : Statistics}
    (h : count? rule statistics = some statistics') (name : String) :
    Entries.find? name statistics'.ruleHits =
      if name = rule then some (Entries.count rule statistics.ruleHits + 1)
      else Entries.find? name statistics.ruleHits := by
  obtain ⟨steps, _, h⟩ := Option.bind_eq_some_iff.mp h
  obtain ⟨hits, hhits, h⟩ := Option.bind_eq_some_iff.mp h
  obtain rfl := Option.some.inj h
  split
  · next hname =>
    subst hname
    exact Entries.find?_add?_self hhits
  · next hname => exact Entries.find?_add?_of_ne hhits hname

/-- The step: one rewrite more in what there is to show, and in the trace. -/
theorem Shows.after (h : machine.Shows progress trace)
    (hafter : progress.after? machine.config.traceLength (.of step) = some progress') :
    machine.Shows progress' (step :: trace) ∧ progress'.fired = true ∧
      progress'.statistics.passes = progress.statistics.passes := by
  obtain ⟨statistics, hcount, rfl⟩ := Option.map_eq_some_iff.mp hafter
  obtain ⟨hsteps, hpasses, hhits⟩ := count?_eq_some hcount
  refine ⟨⟨?_, ?_, ?_, ?_⟩, rfl, hpasses⟩
  · rw [hsteps, h.steps_eq, List.length_cons]
  · rw [h.recent_eq, push_rtake, List.reverse_cons, List.map_append, List.map_singleton]
  · intro name
    have hfound : Entries.find? name statistics.ruleHits =
        if name = step.rule then some (Entries.count step.rule progress.statistics.ruleHits + 1)
        else Entries.find? name progress.statistics.ruleHits := find?_count? hcount name
    split at hfound
    · next hname =>
      subst hname
      rw [hfound, Entries.count, h.find?_eq, List.map_cons, if_pos List.mem_cons_self,
        List.count_cons_self]
      split
      · rfl
      · next habsent => rw [List.count_eq_zero_of_not_mem habsent, Option.getD_none]
    · next hname =>
      rw [hfound, h.find?_eq, List.map_cons, List.count_cons_of_ne (Ne.symm hname)]
      simp only [List.mem_cons, hname, false_or]
  · rw [hhits, hsteps, h.sum_ruleHits]

end Symbolic.Machine
