import Symbolic.Proofs.Registry
import Symbolic.Proofs.RunSound
import Symbolic.Rules.Sample

/-! The rewrites that a run records, whether it succeeds or fails: each is innermost and by the
first rule that changes the node. -/
namespace Symbolic.Engine

/-- The nodes that normalization comes to, each with the operator above it: the root, the children
of such a node, the node over their normal forms, and what is made of it by a rule. -/
inductive Reaches (engine : Engine) (root : Expr) : Occurrence → Prop
  | root : Reaches engine root (none, root)
  | child {parent : Option Operator} {e c : Expr} (h : Reaches engine root (parent, e))
      (hc : c ∈ e.children) : Reaches engine root (e.op?, c)
  | rebuilt {levels : Nat} {parent : Option Operator} {e : Expr} (image : Expr → Expr)
      (cost : Expr → Nat) (h : Reaches engine root (parent, e))
      (hc : ∀ c ∈ e.children, engine.Normalizes levels e.op? c (image c) (cost c)) :
      Reaches engine root (parent, e.rebuilt image)
  | rewritten {parent : Option Operator} {e : Expr} {step : Step}
      (h : Reaches engine root (parent, e)) (hc : ∀ c ∈ e.children, engine.NormalForm e.op? c)
      (hr : engine.rewrite? parent e = .ok (some step)) : Reaches engine root (parent, step.after)

/-- The rewrite that the rules have for a node over normal forms, where normalization comes to
it. -/
def Innermost (engine : Engine) (root : Expr) (step : Step) : Prop :=
  ∃ parent, engine.Reaches root (parent, step.before) ∧
    (∀ c ∈ step.before.children, engine.NormalForm step.before.op? c) ∧
    engine.rewrite? parent step.before = .ok (some step)

/-- The step is the one of the first rule that applies to the node and changes it. No rule before it
fails. -/
def FirstMatch (rules : List Rule) (ctx : Context) (step : Step) : Prop :=
  ∃ earlier rule later, rules = earlier ++ rule :: later ∧
    (∀ r ∈ earlier, r.applies ctx step.before = true →
      r.rewrite ctx step.before = .ok step.before) ∧
    rule.applies ctx step.before = true ∧ rule.rewrite ctx step.before = .ok step.after ∧
    step.rule = rule.name ∧ step.after ≠ step.before

variable {engine : Engine} {levels steps rounds passes : Nat} {parent : Option Operator}
  {root e n : Expr} {s t : State} {p : Step → Prop} {step : Step} {α β : Type}

theorem firstMatch_of_rewrite? (h : engine.rewrite? parent e = .ok (some step)) :
    step.before = e ∧ ∃ op, e.op? = some op ∧
      FirstMatch (engine.registry.candidates op) ⟨parent, engine.config⟩ step := by
  simp only [rewrite?] at h
  cases ho : e.op? with
  | none => simp [ho] at h
  | some op =>
    simp only [ho] at h
    obtain ⟨earlier, rule, later, hsplit, hearlier, ha, hr, hname, rfl, hne⟩ :=
      exists_of_firstRewrite_eq_some h
    exact ⟨rfl, op, rfl, earlier, rule, later, hsplit, hearlier, ha, hr, hname, hne⟩

/-- What a part of a run adds to the trace, the last rewrite first. The limit pays for every
rewrite, except that a failing part may have recorded one more. -/
inductive Adds (p : Step → Prop) (s : State) : Ended α → Prop
  | ok {a : α} {t : State} (new : List Step) (hp : ∀ step ∈ new, p step)
      (ht : t.trace = new ++ s.trace) (hr : t.remaining + new.length = s.remaining) :
      Adds p s (.ok a, t)
  | error {err : SimplifyError} {t : State} (new : List Step) (hp : ∀ step ∈ new, p step)
      (ht : t.trace = new ++ s.trace) (hr : new.length ≤ s.remaining + 1) : Adds p s (.error err, t)

namespace Adds

theorem nothing {a : α} (ht : t.trace = s.trace) (hr : t.remaining = s.remaining) :
    Adds p s (.ok a, t) :=
  .ok [] (by simp) ht hr

theorem failed {err : SimplifyError} (ht : t.trace = s.trace) :
    Adds p s ((.error err, t) : Ended α) :=
  .error [] (by simp) ht (Nat.zero_le _)

theorem andThen {part : Ended α} {next : α → State → Ended β} (h : Adds p s part)
    (hnext : ∀ a t, part = (.ok a, t) → Adds p t (next a t)) : Adds p s (part.andThen next) := by
  cases h with
  | error new hp ht hr => exact .error new hp ht hr
  | @ok a t new hp ht hr =>
    have hrest := hnext a t rfl
    rw [Ended.andThen_ok]
    generalize next a t = rest at hrest
    cases hrest with
    | ok new' hp' ht' hr' =>
      refine .ok (new' ++ new) (List.forall_mem_append.mpr ⟨hp', hp⟩) ?_ ?_
      · rw [ht', ht, List.append_assoc]
      · rw [List.length_append]
        omega
    | error new' hp' ht' hr' =>
      refine .error (new' ++ new) (List.forall_mem_append.mpr ⟨hp', hp⟩) ?_ ?_
      · rw [ht', ht, List.append_assoc]
      · rw [List.length_append]
        omega

theorem record (hp : p step) : Adds p s (engine.record step s) := by
  have hone : ∀ other ∈ [step], p other := by
    intro other hm
    rwa [List.mem_singleton.mp hm]
  simp only [Engine.record]
  cases hr : s.remaining with
  | zero => exact .error [step] hone rfl (by simp)
  | succ remaining => exact .ok [step] hone rfl (by simp [hr])

theorem exists_new {part : Ended α} (h : Adds p s part) :
    ∃ new, (∀ step ∈ new, p step) ∧ part.2.trace = new ++ s.trace ∧
      new.length ≤ s.remaining + 1 := by
  cases h with
  | ok new hp ht hr => exact ⟨new, hp, ht, by omega⟩
  | error new hp ht hr => exact ⟨new, hp, ht, hr⟩

end Adds

theorem Reaches.normalForm (h : engine.Reaches root (parent, e))
    (hn : engine.Normalizes levels parent e n steps) : engine.Reaches root (parent, n) := by
  induction hn with
  | atom => exact h
  | settled image cost ha hc => exact .rebuilt image cost h hc
  | rewritten image cost step ha hc hr _ _ ihn =>
    refine ihn (.rewritten (.rebuilt image cost h hc) ?_ hr)
    exact normalForm_rebuilt_child fun c hm => (hc c hm).normalForm

/-- The nodes with no operator above them are those that the root itself becomes on the way to its
normal form. -/
theorem Reaches.normalizes {n : Expr} {occurrence : Occurrence} {levels steps : Nat}
    (h : engine.Reaches root occurrence) (ho : occurrence.1 = none)
    (hn : engine.Normalizes levels none root n steps) :
    ∃ levels steps, engine.Normalizes levels none occurrence.2 n steps := by
  induction h with
  | root => exact ⟨_, _, hn⟩
  | child _ hc =>
    rw [Expr.children_of_isAtomic (by simpa [Expr.isAtomic] using ho)] at hc
    cases hc
  | rebuilt image cost _ hc ih =>
    obtain ⟨_, _, he⟩ := ih ho
    exact he.rebuilt hc
  | rewritten _ hc hr ih =>
    obtain ⟨_, _, he⟩ := ih ho
    obtain rfl := ho
    have hnext := he.next (normalizes_children_id (Nat.le_refl _) hc)
    rw [Expr.rebuilt_id, hr] at hnext
    obtain hnone | ⟨_, _, _, hsome, hafter⟩ := hnext
    · cases hnone
    · cases hsome
      exact ⟨_, _, hafter⟩

/-- What is known of the rewrites of a function that normalizes under an operator. -/
def Adding (engine : Engine) (root : Expr) (parent : Option Operator)
    (normalize : Expr → State → Ended Expr) : Prop :=
  ∀ e s, engine.MemoSound s.memo → engine.Reaches root (parent, e) →
    Adds (engine.Innermost root) s (normalize e s)

theorem Adding.normalizeList {normalize : Expr → State → Ended Expr} {es : List Expr}
    (ha : engine.Adding root parent normalize) (hn : engine.Computing levels parent normalize)
    (hs : engine.MemoSound s.memo) (hr : ∀ c ∈ es, engine.Reaches root (parent, c)) :
    Adds (engine.Innermost root) s (normalizeList normalize es s) := by
  induction es generalizing s with
  | nil => exact .nothing rfl rfl
  | cons e rest ih =>
    obtain ⟨he, hrest⟩ := List.forall_mem_cons.mp hr
    rw [normalizeList_cons]
    refine (ha e s hs he).andThen fun n between hfirst => ?_
    obtain ⟨_, _, _, _, _, _, hbetween⟩ := hn e s n between hs hfirst
    exact (ih hbetween hrest).andThen fun ns last _ => .nothing rfl rfl

theorem Adding.normalizeChildren {normalize : Option Operator → Expr → State → Ended Expr}
    (ha : ∀ parent, engine.Adding root parent (normalize parent))
    (hn : ∀ parent, engine.Computing levels parent (normalize parent))
    (hs : engine.MemoSound s.memo) (hr : engine.Reaches root (parent, e)) :
    Adds (engine.Innermost root) s (normalizeChildren normalize e s) := by
  rw [normalizeChildren_eq]
  refine Adds.andThen ?_ fun _ _ _ => .nothing rfl rfl
  exact (ha e.op?).normalizeList (hn e.op?) hs fun c hc => .child hr hc

theorem Adding.settle {normalize : Option Operator → Expr → State → Ended Expr}
    (ha : ∀ parent, engine.Adding root parent (normalize parent))
    (hn : ∀ parent, engine.Computing levels parent (normalize parent)) (rounds : Nat) :
    engine.Adding root parent (settle engine normalize parent rounds) := by
  induction rounds with
  | zero =>
    intro e s _ _
    exact .failed rfl
  | succ rounds ih =>
    intro e s hs hr
    rw [settle_succ]
    refine (normalizeChildren ha hn hs hr).andThen fun e' between hchildren => ?_
    obtain ⟨reach, image, cost, _, _, rfl, hnorms, _, hbetween⟩ :=
      Computing.normalizeChildren hn hs hchildren
    have hnormal := normalForm_rebuilt_child fun c hm => (hnorms c hm).normalForm
    have hreached : engine.Reaches root (parent, e.rebuilt image) := .rebuilt image cost hr hnorms
    simp only [afterChildren]
    cases hrw : engine.rewrite? parent (e.rebuilt image) with
    | error err => exact .failed rfl
    | ok found =>
      cases found with
      | none => exact .nothing rfl rfl
      | some step =>
        have hstep : engine.Innermost root step := by
          refine ⟨parent, ?_⟩
          rw [(firstMatch_of_rewrite? hrw).1]
          exact ⟨hreached, hnormal, hrw⟩
        refine (Adds.record hstep).andThen fun _ recorded hrecord => ?_
        refine ih step.after recorded ?_ (.rewritten hreached hnormal hrw)
        rw [memo_of_record hrecord]
        exact hbetween

theorem adding_normalize (engine : Engine) (root : Expr) (levels : Nat) (parent : Option Operator) :
    engine.Adding root parent (engine.normalize levels parent) := by
  refine normalize_induction engine (motive := fun _ parent e s part => engine.MemoSound s.memo →
    engine.Reaches root (parent, e) → Adds (engine.Innermost root) s part)
    ?atom ?deep ?recalled ?settled levels parent
  case atom =>
    intro _ _ _ _ _ _ _
    exact .nothing rfl rfl
  case deep =>
    intro _ _ _ _ _ _
    exact .failed rfl
  case recalled =>
    intro _ _ _ _ _ _ _ _ _
    exact .nothing rfl rfl
  case settled =>
    intro levels parent e s _ _ ih hs hr
    refine Adds.andThen ?_ fun _ _ _ => .nothing rfl rfl
    exact Adding.settle ih (computing_normalize engine levels) _ e s hs hr

/-- A pass forgets the normal forms, but not the trace. -/
theorem adds_pass (hr : engine.Reaches root (none, e)) (s : State) :
    Adds (engine.Innermost root) s
      (engine.normalize engine.config.maxDepth none e { s with memo := ∅ }) := by
  have hpass := adding_normalize engine root engine.config.maxDepth none e { s with memo := ∅ }
    memoSound_empty hr
  generalize engine.normalize engine.config.maxDepth none e { s with memo := ∅ } = part at hpass
  cases hpass with
  | ok new hp ht hr => exact .ok new hp ht hr
  | error new hp ht hr => exact .error new hp ht hr

theorem adds_runPasses (hr : engine.Reaches root (none, e)) :
    Adds (engine.Innermost root) s (engine.runPasses rounds passes e s) := by
  induction rounds generalizing passes e s with
  | zero => exact .failed rfl
  | succ rounds ih =>
    rw [runPasses_succ]
    refine (adds_pass hr s).andThen fun n after hpass => ?_
    split
    · exact .nothing rfl rfl
    · obtain ⟨_, _, _, hnorm, _⟩ := computes_pass hpass
      exact ih (hr.normalForm hnorm)

theorem adds_run (engine : Engine) (e : Expr) :
    Adds (engine.Innermost e) engine.start (engine.run e) := by
  rw [run_eq]
  split
  · exact .failed rfl
  · exact adds_runPasses .root

/-- Whether it succeeds or fails, a run rewrites no node before its children are normal forms under
its operator. It tries the rules that cover the operator in the order of their registration. -/
theorem innermost_of_run (rules : List Rule) (config : Config) (e : Expr) :
    let engine : Engine := ⟨.ofRules rules, config, true⟩
    ∀ step ∈ (engine.run e).2.trace, ∃ parent op, engine.Reaches e (parent, step.before) ∧
      step.before.op? = some op ∧ (∀ c ∈ step.before.children, engine.NormalForm (some op) c) ∧
      FirstMatch (rules.filter fun rule => rule.trigger.covers op) ⟨parent, config⟩ step := by
  intro engine step hm
  obtain ⟨new, hnew, htrace, _⟩ := (adds_run engine e).exists_new
  have hempty : engine.start.trace = [] := rfl
  rw [htrace, hempty, List.append_nil] at hm
  obtain ⟨parent, hreached, hchildren, hr⟩ := hnew step hm
  obtain ⟨_, op, ho, hfirst⟩ := firstMatch_of_rewrite? hr
  rw [ho] at hchildren
  rw [Registry.candidates_ofRules] at hfirst
  exact ⟨parent, op, hreached, ho, hchildren, hfirst⟩

/-- In `x + ~y` the complement is rewritten for the sum above it, by a rule after one that is
idle. -/
theorem innermost_of_complement_in_sum :
    let rules := [Rules.noop, Rules.sumComplement]
    let engine : Engine := ⟨.ofRules rules, {}, true⟩
    let e := Expr.nary .add [(.symbol "x", 1), (.unary .bitNot (.symbol "y"), 1)]
    ∃ step ∈ (engine.run e).2.trace, step.rule = "sum-complement" ∧
      ∃ parent op, engine.Reaches e (parent, step.before) ∧
        step.before.op? = some op ∧ (∀ c ∈ step.before.children, engine.NormalForm (some op) c) ∧
        FirstMatch (rules.filter fun rule => rule.trigger.covers op) ⟨parent, {}⟩ step := by
  intro rules engine e
  obtain ⟨step, htrace, hname⟩ : ∃ step, (engine.run e).2.trace = [step] ∧
      step.rule = "sum-complement" := ⟨_, rfl, rfl⟩
  have hm : step ∈ (engine.run e).2.trace := by
    rw [htrace]
    exact List.mem_singleton_self step
  exact ⟨step, hm, hname, innermost_of_run rules {} e step hm⟩

end Symbolic.Engine
