import Symbolic.Proofs.Strategy

/-! The passes of a run: the first one finds a normal form, and a second one, if any, rewrites
nothing. -/
namespace Symbolic.Engine

/-- A successful run has one pass without a rewrite, or one with rewrites and one without. -/
inductive Passes (engine : Engine) (e : Expr) : Outcome → Prop
  | quiet {n : Expr} {after : State}
      (hfirst : engine.normalize engine.config.maxDepth none e engine.start = (.ok n, after))
      (hquiet : after.remaining = engine.config.maxSteps) :
      Passes engine e ⟨n, after.trace.reverse, 1⟩
  | twice {n : Expr} {after last : State}
      (hfirst : engine.normalize engine.config.maxDepth none e engine.start = (.ok n, after))
      (hfired : after.remaining ≠ engine.config.maxSteps)
      (hsecond : engine.normalize engine.config.maxDepth none n { after with memo := ∅ } =
        (.ok n, last))
      (hquiet : last.remaining = after.remaining) :
      Passes engine e ⟨n, last.trace.reverse, 2⟩

variable {engine : Engine} {registry : Registry} {config : Config} {parent : Option Operator}
  {e n : Expr} {o : Outcome} {s t after : State} {step : Step}

theorem passes_of_run_eq_ok (h : engine.run e = (.ok o, t)) :
    e.depth ≤ engine.config.maxDepth ∧ engine.Passes e o := by
  rw [run_eq] at h
  split at h
  · cases h
  · next hd =>
    refine ⟨Nat.le_of_not_lt hd, ?_⟩
    simp only [runPasses_succ] at h
    obtain ⟨n, after, hfirst, hrest⟩ := Ended.andThen_eq_ok.mp h
    split at hrest
    · next hquiet =>
      cases hrest
      exact .quiet hfirst hquiet
    · next hfired =>
      obtain ⟨_, _, _, hnorm, _⟩ := computes_pass hfirst
      cases hrounds : engine.config.maxSteps with
      | zero =>
        rw [hrounds] at hrest
        cases hrest
      | succ rounds =>
        simp only [hrounds, runPasses_succ] at hrest
        obtain ⟨n', last, hsecond, hend⟩ := Ended.andThen_eq_ok.mp hrest
        obtain ⟨rfl, hquiet, _⟩ := pass_of_normalForm hnorm.normalForm hsecond
        rw [if_pos hquiet] at hend
        cases hend
        exact .twice hfirst hfired hsecond hquiet

theorem passes_of_simplifyWith (h : simplifyWith registry config e = .ok o) :
    e.depth ≤ config.maxDepth ∧ Passes ⟨registry, config, true⟩ e o :=
  passes_of_run_eq_ok (Prod.ext h rfl)

/-- From a normal form nothing but normal forms is reached. -/
theorem Reaches.of_normalForm {occurrence : Occurrence} (h : engine.Reaches e occurrence)
    (hn : engine.NormalForm none e) : engine.NormalForm occurrence.1 occurrence.2 := by
  induction h with
  | root => exact hn
  | child _ hc ih => exact (normalForm_iff.mp ih).2 _ hc
  | rebuilt image cost _ hc ih =>
    obtain ⟨_, hchildren⟩ := normalForm_iff.mp ih
    rw [Expr.rebuilt_of_map_eq fun c hm =>
      ((hc c hm).deterministic ((hchildren c hm).normalizes (Nat.le_refl _))).1]
    exact ih
  | rewritten _ _ hr ih =>
    obtain ⟨hsettled, _⟩ := normalForm_iff.mp ih
    rw [rewrite?_eq_none_iff.mpr hsettled] at hr
    cases hr

theorem NormalForm.not_innermost (hn : engine.NormalForm none e) : ¬ engine.Innermost e step := by
  rintro ⟨parent, hreached, _, hr⟩
  obtain ⟨hsettled, _⟩ := normalForm_iff.mp (hreached.of_normalForm hn)
  rw [rewrite?_eq_none_iff.mpr hsettled] at hr
  cases hr

/-- A pass over a normal form records nothing, even if it fails. -/
theorem NormalForm.trace_pass (hn : engine.NormalForm none e) (s : State) :
    (engine.normalize engine.config.maxDepth none e { s with memo := ∅ }).2.trace = s.trace := by
  obtain ⟨new, hnew, htrace, _⟩ := (adds_pass .root s).exists_new
  have hempty : new = [] := List.eq_nil_iff_forall_not_mem.mpr fun step hm =>
    hn.not_innermost (hnew step hm)
  rw [htrace, hempty, List.nil_append]

/-- The limit counts the rewrites of the first pass. -/
theorem length_trace_pass
    (h : engine.normalize engine.config.maxDepth none e engine.start = (.ok n, after)) :
    after.remaining + after.trace.length = engine.config.maxSteps := by
  have hadds : Adds (engine.Innermost e) engine.start (.ok n, after) :=
    h ▸ adds_pass .root engine.start
  cases hadds with
  | ok new _ ht hr =>
    rw [ht, List.length_append]
    exact hr

/-- The first pass has found the outcome and has recorded all the rewrites of the run. -/
theorem Passes.first (h : engine.Passes e o) :
    ∃ after, engine.normalize engine.config.maxDepth none e engine.start = (.ok o.expr, after) ∧
      o.trace = after.trace.reverse ∧ engine.NormalForm none o.expr := by
  cases h with
  | @quiet n after hfirst =>
    obtain ⟨_, _, _, hnorm, _⟩ := computes_pass (s := engine.start) hfirst
    exact ⟨after, hfirst, rfl, hnorm.normalForm⟩
  | @twice n after last hfirst _ hsecond =>
    obtain ⟨_, _, _, hnorm, _⟩ := computes_pass (s := engine.start) hfirst
    have hsame := hnorm.normalForm.trace_pass after
    rw [hsecond] at hsame
    exact ⟨after, hfirst, congrArg List.reverse hsame, hnorm.normalForm⟩

theorem Passes.passes_eq (h : engine.Passes e o) : o.passes = if o.steps = 0 then 1 else 2 := by
  obtain ⟨after', hfirst', htrace, _⟩ := h.first
  have hsteps : o.steps = after'.trace.length := by rw [Outcome.steps, htrace, List.length_reverse]
  have hlength := length_trace_pass hfirst'
  cases h with
  | quiet hfirst hquiet =>
    obtain ⟨_, rfl⟩ := Prod.mk.inj (hfirst.symm.trans hfirst')
    rw [if_pos (by omega)]
  | twice hfirst hfired =>
    obtain ⟨_, rfl⟩ := Prod.mk.inj (hfirst.symm.trans hfirst')
    rw [if_neg (by omega)]

/-- The second pass finds the outcome again and records nothing. -/
theorem Passes.second (h : engine.Passes e o) (hk : o.steps ≠ 0) :
    ∃ after last : State,
      engine.normalize engine.config.maxDepth none o.expr { after with memo := ∅ } =
        (.ok o.expr, last) ∧ last.trace = after.trace := by
  obtain ⟨_, hfirst', htrace, hnormal⟩ := h.first
  cases h with
  | quiet hfirst hquiet =>
    have hlength := length_trace_pass hfirst
    rw [Outcome.steps, List.length_reverse] at hk
    omega
  | @twice n after last _ _ hsecond =>
    refine ⟨after, last, hsecond, ?_⟩
    rw [← hnormal.trace_pass after, hsecond]

/-- Two passes suffice, and one where nothing is rewritten. The first pass ends in a normal form
with all the rewrites of the run behind it, and a pass over what it has found rewrites nothing. -/
theorem passes_eq_of_simplifyWith (h : simplifyWith registry config e = .ok o) :
    let engine : Engine := ⟨registry, config, true⟩
    o.passes = (if o.steps = 0 then 1 else 2) ∧
    ∃ after, engine.normalize config.maxDepth none e engine.start = (.ok o.expr, after) ∧
      o.trace = after.trace.reverse ∧ engine.NormalForm none o.expr ∧
      (engine.normalize config.maxDepth none o.expr { after with memo := ∅ }).2.trace =
        after.trace := by
  intro engine
  obtain ⟨_, hpasses⟩ := passes_of_simplifyWith h
  obtain ⟨after, hfirst, htrace, hnormal⟩ := hpasses.first
  exact ⟨hpasses.passes_eq, after, hfirst, htrace, hnormal, hnormal.trace_pass after⟩

/-- In `f(x < y)` the comparison is rewritten first, then the call at the root: two rewrites, both
in the first of two passes. -/
theorem passes_eq_of_marked_call :
    let registry := Registry.ofRules [Rules.negateLess, Rules.rootCall]
    let engine : Engine := ⟨registry, {}, true⟩
    let e := Expr.call (.symbol "f") [.binary .lt (.symbol "x") (.symbol "y")]
    ∃ o, simplifyWith registry {} e = .ok o ∧ o.steps = 2 ∧ o.passes = 2 ∧
      ∃ after, engine.normalize 256 none e engine.start = (.ok o.expr, after) ∧
        after.trace.length = 2 := by
  intro registry engine e
  obtain ⟨o, h, hsteps⟩ : ∃ o, simplifyWith registry {} e = .ok o ∧ o.steps = 2 := ⟨_, rfl, rfl⟩
  obtain ⟨hpasses, after, hfirst, htrace, _⟩ := passes_eq_of_simplifyWith h
  refine ⟨o, h, hsteps, ?_, after, hfirst, ?_⟩
  · rw [hpasses, hsteps]
    rfl
  · rw [← List.length_reverse, ← htrace]
    exact hsteps

end Symbolic.Engine
