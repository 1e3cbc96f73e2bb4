import Symbolic.Proofs.MachineParts
import Symbolic.Tree.Sample

/-! Runs halt: their loops end by themselves, and no bound on their rounds is ever met. -/
namespace Symbolic.Machine

/-- Rules that always end: with a value, with a failure, or because a multiplicity is beyond a
machine word. -/
def Total (machine : Machine) : Prop :=
  ∀ rule ∈ machine.rules, ∀ (ctx : Context) (t : Tree) (cause : Halt),
    rule.applies ctx t = .error (.halted cause) ∨ rule.rewrite ctx t = .error (.halted cause) →
      cause = .multiplicity

/-- Every rewrite is counted for its rule, and there are no more than the limit allows. -/
structure Consistent (machine : Machine) (s : State) : Prop where
  within : s.statistics.steps ≤ machine.config.maxSteps
  sum_ruleHits : (s.statistics.ruleHits.map Prod.snd).sum = s.statistics.steps

/-- The second state comes after the first one in a pass. -/
structure Later (s t : State) : Prop where
  steps_le : s.statistics.steps ≤ t.statistics.steps
  passes_eq : t.statistics.passes = s.statistics.passes
  fired_imp : t.fired = true → s.fired = true ∨ s.statistics.steps < t.statistics.steps

/-- The end of a part of a run from a state. -/
inductive EndsIn (machine : Machine) {α : Type} (s : State) : Except Exit α → State → Prop
  | ok {a : α} {t : State} (h : machine.Consistent t) (hl : Later s t) : EndsIn machine s (.ok a) t
  | error {exit : Exit} {t : State} (h : Exit.Allowed machine exit)
      (hs : t.statistics.steps ≤ machine.config.maxSteps + 1) : EndsIn machine s (.error exit) t

/-- The end of a whole run. -/
inductive RunEnds (machine : Machine) : Except Exit Tree → State → Prop
  | ok {normal : Tree} {s : State} (h : machine.Consistent s)
      (hs : s.statistics.simplified = true ↔ 0 < s.statistics.steps)
      (hp : s.statistics.passes ≤ s.statistics.steps + 1) : RunEnds machine (.ok normal) s
  | error {exit : Exit} {s : State} (h : Exit.Allowed machine exit)
      (hs : s.statistics.steps ≤ machine.config.maxSteps + 1) : RunEnds machine (.error exit) s

/-- Two parts end, and in the same way. -/
def EndsAs (machine : Machine) (α : Type) (x x' : Run α) : Prop :=
  ∀ s, machine.Consistent s →
    ∃ outcome t, x s = some (outcome, t) ∧ x' s = some (outcome, t) ∧ machine.EndsIn s outcome t

variable {α β : Type} {machine : Machine} {s t u : State} {exit : Exit} {rounds rounds' : Nat}
  {x x' : Run α} {f f' : α → Run β} {step : Tree.Step} {a : Unit}

theorem Later.refl (s : State) : Later s s := ⟨Nat.le_refl _, rfl, Or.inl⟩

theorem Later.trans (h : Later s t) (h' : Later t u) : Later s u := by
  have hst := h.steps_le
  have htu := h'.steps_le
  refine ⟨Nat.le_trans hst htu, h'.passes_eq.trans h.passes_eq, fun hu => ?_⟩
  rcases h'.fired_imp hu with ht | hlt
  · rcases h.fired_imp ht with hs | hlt
    · exact Or.inl hs
    · exact Or.inr (by omega)
  · exact Or.inr (by omega)

namespace EndsAs

theorem error (h : Exit.Allowed machine exit) : machine.EndsAs α (throw exit) (throw exit) :=
  fun s hs => ⟨.error exit, s, rfl, rfl, .error h (Nat.le_succ_of_le hs.within)⟩

theorem bind (h : machine.EndsAs α x x') (hf : ∀ a, machine.EndsAs β (f a) (f' a)) :
    machine.EndsAs β (x >>= f) (x' >>= f') := by
  intro s hs
  obtain ⟨outcome, t, hx, hx', hends⟩ := h s hs
  cases hends with
  | error hexit hsteps =>
    exact ⟨_, t, bind_of_error hx, bind_of_error hx', .error hexit hsteps⟩
  | @ok a t ht hl =>
    obtain ⟨outcome, u, hu, hu', hends⟩ := hf a t ht
    refine ⟨outcome, u, (bind_of_ok hx).trans hu, (bind_of_ok hx').trans hu', ?_⟩
    cases hends with
    | error hexit hsteps => exact .error hexit hsteps
    | ok hu hl' => exact .ok hu (hl.trans hl')

theorem lift {x : Attempt α} (h : ∀ exit, x = .error exit → Exit.Allowed machine exit) :
    machine.EndsAs α (liftM x) (liftM x) := by
  intro s hs
  refine ⟨x, s, rfl, rfl, ?_⟩
  cases x with
  | error exit => exact .error (h exit rfl) (Nat.le_succ_of_le hs.within)
  | ok a => exact .ok hs (.refl s)

theorem inherited (machine : Machine) : Inherited machine.EndsAs where
  pure a := lift (x := .ok a) nofun
  counted x := by
    refine lift ?_
    cases x with
    | some a => exact nofun
    | none =>
      rintro exit ⟨⟩
      exact Exit.allowed_multiplicity
  bind := bind

/-- One rewrite is recorded. -/
theorem record (step : Tree.Step) :
    machine.EndsAs Unit (machine.record step) (machine.record step) := by
  intro s hs
  have hwithin := hs.within
  cases h : s.toProgress.after? machine.config.traceLength step with
  | none =>
    refine ⟨_, s, record_of_none h, record_of_none h, .error ?_ (by omega)⟩
    have hcount := count?_eq_none hs.sum_ruleHits (Option.map_eq_none_iff.mp h)
    exact Exit.allowed_counter (by omega)
  | some progress =>
    have hrecord := record_eq h
    obtain ⟨statistics, hcount, rfl⟩ := Option.map_eq_some_iff.mp h
    obtain ⟨hsteps, hpasses, hhits⟩ := count?_eq_some hcount
    dsimp only at hrecord
    split at hrecord
    · refine ⟨_, _, hrecord, hrecord, .error (Exit.allowed_failed _) ?_⟩
      dsimp only
      omega
    · refine ⟨_, _, hrecord, hrecord, .ok ⟨?_, ?_⟩ ⟨?_, hpasses, fun _ => Or.inr ?_⟩⟩
      · dsimp only
        omega
      · dsimp only
        rw [hhits, hsteps, hs.sum_ruleHits]
      · dsimp only
        omega
      · dsimp only
        omega

end EndsAs

/-- Looking for a rewrite halts where a rule does. -/
theorem cause_of_firstRewrite {ctx : Context} {t : Tree} {rules : List Tree.Rule} {cause : Halt}
    (ht : machine.Total) (hm : ∀ rule ∈ rules, rule ∈ machine.rules)
    (h : firstRewrite ctx t rules = .error (.halted cause)) : cause = .multiplicity := by
  induction rules with
  | nil => cases h
  | cons rule rest ih =>
    have hrule := ht rule (hm rule List.mem_cons_self) ctx t cause
    have hrest := ih fun rule hm' => hm rule (List.mem_cons_of_mem _ hm')
    rw [firstRewrite] at h
    cases ha : rule.applies ctx t with
    | error exit =>
      rw [ha] at h
      cases h
      exact hrule (Or.inl ha)
    | ok applies =>
      rw [ha] at h
      cases applies with
      | false => exact hrest h
      | true =>
        cases hr : rule.rewrite ctx t with
        | error exit =>
          rw [hr] at h
          cases h
          exact hrule (Or.inr hr)
        | ok next =>
          rw [hr] at h
          by_cases hnext : next = t
          · exact hrest ((if_pos hnext).symm.trans h)
          · cases (if_neg hnext).symm.trans h

theorem allowed_of_rewrite? {parent : Option Operator} {t : Tree} (ht : machine.Total)
    (h : machine.rewrite? parent t = .error exit) : Exit.Allowed machine exit := by
  rintro cause rfl
  rw [rewrite?] at h
  split at h
  · cases h
  · exact Or.inl (cause_of_firstRewrite ht (fun _ => List.mem_of_mem_filter) h)

theorem steps_of_record (h : machine.record step s = some (.ok a, t)) :
    t.statistics.steps = s.statistics.steps + 1 := by
  obtain ⟨statistics, hcount, _, rfl⟩ := exists_of_record_eq_ok h
  exact (count?_eq_some hcount).1

namespace EndsAs

/-- Every round but the last records a rewrite, which the limit pays for. -/
theorem settle {normalize normalize' : Option Operator → Tree → Run Tree} (ht : machine.Total)
    (hn : ∀ parent t, machine.EndsAs Tree (normalize parent t) (normalize' parent t))
    (parent : Option Operator) {left left' : Nat} {t : Tree} {s : State}
    (hs : machine.Consistent s) (hleft : machine.config.maxSteps < s.statistics.steps + left)
    (hleft' : machine.config.maxSteps < s.statistics.steps + left') :
    ∃ outcome u, machine.settle normalize parent left t s = some (outcome, u) ∧
      machine.settle normalize' parent left' t s = some (outcome, u) ∧
      machine.EndsIn s outcome u := by
  have hwithin := hs.within
  induction left generalizing left' t s with
  | zero => omega
  | succ left ih =>
    obtain ⟨left', rfl⟩ : ∃ k, left' = k + 1 := ⟨left' - 1, by omega⟩
    obtain ⟨outcome, between, hx, hx', hends⟩ :=
      (inherited machine).normalizeChildren hn t s hs
    rw [Machine.settle, Machine.settle]
    cases hends with
    | error hexit hsteps =>
      exact ⟨_, between, bind_of_error hx, bind_of_error hx', .error hexit hsteps⟩
    | @ok t' between hbetween hl =>
      rw [bind_of_ok hx, bind_of_ok hx']
      cases hr : machine.rewrite? parent t' with
      | error exit =>
        have hbound := Nat.le_succ_of_le hbetween.within
        exact ⟨_, between, rfl, rfl, .error (allowed_of_rewrite? ht hr) hbound⟩
      | ok found =>
        rw [lift_bind_of_ok rfl, lift_bind_of_ok rfl]
        cases found with
        | none => exact ⟨_, between, rfl, rfl, .ok hbetween hl⟩
        | some step =>
          obtain ⟨outcome, recorded, hrecord, _, hends⟩ := record step between hbetween
          have hsteps := hl.steps_le
          cases hends with
          | error hexit hbound =>
            exact ⟨_, recorded, bind_of_error hrecord, bind_of_error hrecord, .error hexit hbound⟩
          | @ok _ recorded hrecorded hl' =>
            have hone := steps_of_record hrecord
            have hpaid' : machine.config.maxSteps < recorded.statistics.steps + left' := by omega
            obtain ⟨outcome, u, hu, hu', hends⟩ :=
              ih (t := step.after) hrecorded (by omega) hpaid' hrecorded.within
            refine ⟨outcome, u, (bind_of_ok hrecord).trans hu, (bind_of_ok hrecord).trans hu', ?_⟩
            cases hends with
            | error hexit hbound => exact .error hexit hbound
            | ok hu hlast => exact .ok hu ((hl.trans hl').trans hlast)

theorem remember (parent : Option Operator) (t normal : Tree) :
    machine.EndsAs PUnit (modify (remember parent t normal)) (modify (remember parent t normal)) :=
  fun s hs => ⟨.ok ⟨⟩, Machine.remember parent t normal s, rfl, rfl,
    .ok ⟨hs.within, hs.sum_ruleHits⟩ ⟨Nat.le_refl _, rfl, Or.inl⟩⟩

theorem normalize (ht : machine.Total) (hr : machine.config.maxSteps < rounds)
    (hr' : machine.config.maxSteps < rounds') (levels : Nat) (parent : Option Operator) (t : Tree) :
    machine.EndsAs Tree (machine.normalize rounds levels parent t)
      (machine.normalize rounds' levels parent t) := by
  induction levels generalizing parent t with
  | zero =>
    simp only [Machine.normalize]
    split
    · exact (inherited machine).pure t
    · exact error (Exit.allowed_failed _)
  | succ levels ih =>
    intro s hs
    simp only [Machine.normalize]
    split
    · exact (inherited machine).pure t s hs
    · simp only [get_bind_apply]
      cases s.memo.lookup (parent, t) with
      | some normal => exact (inherited machine).pure normal s hs
      | none =>
        refine bind (fun s hs => ?_) (fun normal => ?_) s hs
        · exact settle ht ih parent hs (by omega) (by omega)
        · exact bind (remember parent t normal) fun _ => (inherited machine).pure normal

end EndsAs

/-- Every pass but the last records a rewrite. -/
theorem runPasses_ends (ht : machine.Total) (hr : machine.config.maxSteps < rounds)
    (hr' : machine.config.maxSteps < rounds') {left left' : Nat} {t : Tree} {s : State}
    (hs : machine.Consistent s) (hp : s.statistics.passes ≤ s.statistics.steps)
    (hleft : machine.config.maxSteps < s.statistics.steps + left)
    (hleft' : machine.config.maxSteps < s.statistics.steps + left') :
    ∃ outcome u, machine.runPasses rounds left t s = some (outcome, u) ∧
      machine.runPasses rounds' left' t s = some (outcome, u) ∧ machine.RunEnds outcome u := by
  have hwithin := hs.within
  induction left generalizing left' t s with
  | zero => omega
  | succ left ih =>
    obtain ⟨left', rfl⟩ : ∃ k, left' = k + 1 := ⟨left' - 1, by omega⟩
    rw [runPasses, runPasses]
    by_cases hlt : s.statistics.passes + 1 < wordCount
    · rw [bind_of_ok (beginPass_of_lt hlt), bind_of_ok (beginPass_of_lt hlt)]
      obtain ⟨outcome, after, hpass, hpass', hends⟩ :=
        EndsAs.normalize ht hr hr' machine.config.maxDepth none t
          (s.inPass (s.statistics.passes + 1)) ⟨hs.within, hs.sum_ruleHits⟩
      cases hends with
      | error hexit hsteps =>
        exact ⟨_, after, bind_of_error hpass, bind_of_error hpass', .error hexit hsteps⟩
      | @ok next after hafter hl =>
        rw [bind_of_ok hpass, bind_of_ok hpass', get_bind_apply, get_bind_apply]
        have hpasses : after.statistics.passes = s.statistics.passes + 1 := hl.passes_eq
        have hsteps : s.statistics.steps ≤ after.statistics.steps := hl.steps_le
        cases hfired : after.fired with
        | false =>
          refine ⟨.ok next, after.finished, rfl, rfl,
            .ok ⟨hafter.within, hafter.sum_ruleHits⟩ ?_ ?_⟩
          · exact decide_eq_true_iff
          · change after.statistics.passes ≤ after.statistics.steps + 1
            omega
        | true =>
          have hmore : s.statistics.steps < after.statistics.steps := by
            rcases hl.fired_imp hfired with hnot | hmore
            · cases hnot
            · exact hmore
          exact ih hafter (by omega) (by omega) (by omega) hafter.within
    · refine ⟨_, s, bind_of_error (beginPass_of_not_lt hlt),
        bind_of_error (beginPass_of_not_lt hlt), .error ?_ (by omega)⟩
      exact Exit.allowed_counter (by omega)

theorem run_ends (ht : machine.Total) (hr : machine.config.maxSteps < rounds)
    (hr' : machine.config.maxSteps < rounds') (t : Tree) :
    ∃ outcome u, machine.run rounds t {} = some (outcome, u) ∧
      machine.run rounds' t {} = some (outcome, u) ∧ machine.RunEnds outcome u := by
  rw [run, run]
  split
  · exact ⟨.error machine.tooDeep, {}, rfl, rfl, .error (Exit.allowed_failed _) (Nat.zero_le _)⟩
  · refine runPasses_ends ht hr hr' ⟨Nat.zero_le _, rfl⟩ (Nat.le_refl 0) ?_ ?_
    · exact Nat.lt_of_lt_of_eq hr (Nat.zero_add rounds).symm
    · exact Nat.lt_of_lt_of_eq hr' (Nat.zero_add rounds').symm

/-- Whatever the rules, if they are total, a run halts: its loops end within one round more than the
limit, with one rewrite more at most. A successful run keeps to the limit, every rewrite is counted
for its rule, and every pass but one has a rewrite. The run never begins if its buffer is larger
than any that can be asked for; a multiplicity may be beyond a machine word, and so may a count if
the limit is the largest. -/
theorem simplify_halts (machine : Machine) (ht : machine.Total) (t : Tree) :
    ∃ outcome s,
      (∀ rounds, machine.config.maxSteps < rounds →
        machine.run rounds t {} = some (outcome, s) ∧
        machine.simplify rounds t =
          some (if maxBytes < machine.config.traceLength * stepBytes then .error (.halted .capacity)
            else outcome.map fun normal => (normal, s.statistics))) ∧
      s.statistics.steps ≤ machine.config.maxSteps + 1 ∧
      (∀ cause, outcome = .error (.halted cause) →
        cause = .multiplicity ∨ cause = .counter ∧ wordCount ≤ machine.config.maxSteps + 1) ∧
      ∀ normal, outcome = .ok normal →
        s.statistics.steps ≤ machine.config.maxSteps ∧
        s.statistics.steps = (s.statistics.ruleHits.map Prod.snd).sum ∧
        (s.statistics.simplified = true ↔ 0 < s.statistics.steps) ∧
        s.statistics.passes ≤ s.statistics.steps + 1 := by
  have hlast := Nat.lt_succ_self machine.config.maxSteps
  obtain ⟨outcome, s, hrun, _, hends⟩ := run_ends ht hlast hlast t
  refine ⟨outcome, s, fun rounds hr => ?_, ?_, ?_, ?_⟩
  · obtain ⟨_, _, hsame, hrun', _⟩ := run_ends ht hlast hr t
    obtain ⟨rfl, rfl⟩ := Prod.mk.inj (Option.some.inj (hrun.symm.trans hsame))
    refine ⟨hrun', ?_⟩
    split
    · next hlarge => exact if_pos hlarge
    · next hfits => exact simplify_of_run (Nat.le_of_not_lt hfits) hrun'
  · cases hends with
    | ok h _ _ => exact Nat.le_succ_of_le h.within
    | error _ hs => exact hs
  · rintro cause rfl
    cases hends with
    | error h _ => exact h cause rfl
  · rintro normal rfl
    cases hends with
    | ok h hsimplified hpasses => exact ⟨h.within, h.sum_ruleHits.symm, hsimplified, hpasses⟩

/-- Of two rules that contradict each other the first one alone rewrites `x < y`, once, and no loop
takes more than two rounds. -/
theorem simplify_halts_of_contradictory_rules :
    let machine : Machine := ⟨[Tree.Rules.negateLess, Tree.Rules.swap], { maxSteps := 1 }⟩
    let t := Tree.binary .lt (.symbol "x") (.symbol "y")
    machine.Total ∧ ∃ normal statistics,
      machine.simplify 2 t = some (.ok (normal, statistics)) ∧ statistics.steps = 1 ∧
      (statistics.ruleHits.map Prod.snd).sum = 1 ∧ statistics.simplified = true ∧
      statistics.passes ≤ 2 := by
  intro machine t
  have ht : machine.Total := by
    intro rule hm ctx t cause h
    simp only [machine, List.mem_cons, List.not_mem_nil, or_false] at hm
    rcases hm with rfl | rfl
    · cases ho : t.operands? <;> simp [Tree.Rules.negateLess, ho, pure, Except.pure] at h
    · cases ho : t.operands? <;> simp [Tree.Rules.swap, ho, pure, Except.pure] at h
  obtain ⟨outcome, s, hends, _, _, hok⟩ := simplify_halts machine ht t
  obtain ⟨hrun, hsimplify⟩ := hends 2 Nat.one_lt_two
  obtain ⟨normal, s', hrun', hsteps⟩ :
      ∃ normal s', machine.run 2 t {} = some (.ok normal, s') ∧ s'.statistics.steps = 1 :=
    ⟨_, _, rfl, rfl⟩
  obtain ⟨rfl, rfl⟩ := Prod.mk.inj (Option.some.inj (hrun.symm.trans hrun'))
  obtain ⟨_, hsum, hsimplified, hpasses⟩ := hok normal rfl
  rw [hsteps] at hsum hsimplified hpasses
  exact ⟨ht, normal, s.statistics, hsimplify, hsteps, hsum.symm,
    hsimplified.mpr Nat.one_pos, hpasses⟩

/-- Without a rule `x` is its own normal form, and a run with the largest buffer never begins. -/
theorem simplify_ne_ok_of_largest_buffer :
    let machine (traceLength : Nat) : Machine := ⟨[], { traceLength }⟩
    (machine 8).Total ∧ (machine (wordCount - 1)).Total ∧
      (machine 8).simplify 1 (.symbol "x") =
        some (.ok (.symbol "x", { steps := 0, passes := 1, simplified := false, ruleHits := [] })) ∧
      ∀ rounds, (machine (wordCount - 1)).simplify rounds (.symbol "x") =
        some (.error (.halted .capacity)) := by
  intro machine
  refine ⟨nofun, nofun, rfl, fun rounds => ?_⟩
  exact if_pos (by decide)

end Symbolic.Machine
