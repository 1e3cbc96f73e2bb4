import Mathlib.Data.List.DropRight
import Symbolic.Machine
import Symbolic.Proofs.Entries

/-! Parts of a run, one after the other, and what a rewrite changes in the state. -/
namespace Symbolic

theorem Attempt.orHalt_eq_ok_iff {α : Type} {cause : Halt} {x : Option α} {a : α} :
    Attempt.orHalt cause x = .ok a ↔ x = some a := by
  cases x <;> simp [Attempt.orHalt]

namespace Machine

/-- A failure, or a halt for which there is a cause. -/
def Exit.Allowed (machine : Machine) (exit : Exit) : Prop :=
  ∀ cause, exit = .halted cause →
    cause = .multiplicity ∨ cause = .counter ∧ wordCount ≤ machine.config.maxSteps + 1

variable {α β : Type} {machine : Machine} {s t u : State} {exit : Exit} {a : α} {b : β}
  {x : Run α} {f : α → Run β} {step : Tree.Step} {steps : List Tree.Step}
  {progress : Progress} {capacity : Nat}

theorem Exit.allowed_failed (cause : Tree.Failure) : Exit.Allowed machine (.failed cause) := nofun

theorem Exit.allowed_multiplicity : Exit.Allowed machine (.halted .multiplicity) := by
  rintro cause ⟨⟩
  exact Or.inl rfl

theorem Exit.allowed_counter (h : wordCount ≤ machine.config.maxSteps + 1) :
    Exit.Allowed machine (.halted .counter) := by
  rintro cause ⟨⟩
  exact Or.inr ⟨rfl, h⟩

/-! ## Sequences -/

theorem get_bind_apply (f : State → Run α) (s : State) : (get >>= f) s = f s s := rfl

theorem modify_bind_apply (g : State → State) (f : PUnit → Run α) (s : State) :
    (modify g >>= f) s = f ⟨⟩ (g s) := rfl

theorem bind_of_ok (h : x s = some (.ok a, t)) : (x >>= f) s = f a t := by
  have hbind : (x >>= f) s = (x s).bind fun part => ExceptT.bindCont f part.1 part.2 := rfl
  rw [hbind, h]
  rfl

theorem bind_of_error (h : x s = some (.error exit, t)) : (x >>= f) s = some (.error exit, t) := by
  have hbind : (x >>= f) s = (x s).bind fun part => ExceptT.bindCont f part.1 part.2 := rfl
  rw [hbind, h]
  rfl

theorem lift_bind_of_ok {x : Attempt α} (h : x = .ok a) : (liftM x >>= f) s = f a s := by
  subst h
  rfl

theorem lift_bind_of_error {x : Attempt α} (h : x = .error exit) :
    (liftM x >>= f) s = some (.error exit, s) := by
  subst h
  rfl

/-- A sequence succeeds where its parts do. -/
theorem exists_of_bind_eq_ok (h : (x >>= f) s = some (.ok b, u)) :
    ∃ a t, x s = some (.ok a, t) ∧ f a t = some (.ok b, u) := by
  cases hx : x s with
  | none =>
    have hbind : (x >>= f) s = (x s).bind fun part => ExceptT.bindCont f part.1 part.2 := rfl
    rw [hbind, hx] at h
    cases h
  | some part =>
    obtain ⟨outcome, t⟩ := part
    cases outcome with
    | error exit =>
      rw [bind_of_error hx] at h
      cases h
    | ok a => exact ⟨a, t, rfl, (bind_of_ok hx).symm.trans h⟩

/-- What the end of a run shows, if its buffer can be made. -/
theorem simplify_of_run {rounds : Nat} {t : Tree} {outcome : Except Exit Tree}
    (hfits : machine.config.traceLength * stepBytes ≤ maxBytes)
    (h : machine.run rounds t {} = some (outcome, s)) :
    machine.simplify rounds t = some (outcome.map fun normal => (normal, s.statistics)) := by
  rw [simplify, if_neg (Nat.not_lt_of_le hfits), h]
  cases outcome <;> rfl

theorem exists_of_simplify_eq_ok {rounds : Nat} {t normal : Tree} {statistics : Statistics}
    (h : machine.simplify rounds t = some (.ok (normal, statistics))) :
    ∃ s, machine.run rounds t {} = some (.ok normal, s) ∧ s.statistics = statistics := by
  rw [simplify] at h
  split at h
  · cases h
  · split at h
    · cases h
    · next hrun =>
      obtain ⟨rfl, rfl⟩ := Prod.mk.inj (Except.ok.inj (Option.some.inj h))
      exact ⟨_, hrun, rfl⟩
    · cases h

/-! ## Relations that a sequence inherits from its parts -/

/-- A relation between parts of two runs that parts in sequence inherit. -/
structure Inherited (related : ∀ α : Type, Run α → Run α → Prop) : Prop where
  pure {α : Type} (a : α) : related α (pure a) (pure a)
  counted {α : Type} (x : Option α) :
    related α (liftM (Symbolic.counted x)) (liftM (Symbolic.counted x))
  bind {α β : Type} {x x' : Run α} {f f' : α → Run β} (h : related α x x')
    (hf : ∀ a, related β (f a) (f' a)) : related β (x >>= f) (x' >>= f')

section

variable {related : ∀ α : Type, Run α → Run α → Prop} {f f' : Tree → StateT Bool Run Tree}
  {normalize normalize' : Option Operator → Tree → Run Tree} {terms mapped : Entries Tree}
  {children : List Tree}

theorem Inherited.mapTerms (hr : Inherited related)
    (h : ∀ t b, related _ (f t b) (f' t b)) (terms mapped : Entries Tree) (b : Bool) :
    related _ (Tree.mapTerms f terms mapped b) (Tree.mapTerms f' terms mapped b) := by
  induction terms generalizing mapped b with
  | nil => exact hr.pure _
  | cons entry rest ih =>
    refine hr.bind (h entry.1 b) fun image => ?_
    refine hr.bind (hr.bind (hr.counted _) fun mapped => hr.pure (mapped, image.2)) fun mapped => ?_
    exact ih mapped.1 mapped.2

theorem Inherited.mapM (hr : Inherited related) (h : ∀ t b, related _ (f t b) (f' t b))
    (children : List Tree) (b : Bool) :
    related _ (children.mapM f b) (children.mapM f' b) := by
  induction children generalizing b with
  | nil => exact hr.pure _
  | cons c rest ih =>
    rw [List.mapM_cons, List.mapM_cons]
    refine hr.bind (h c b) fun image => ?_
    exact hr.bind (ih image.2) fun images => hr.pure _

/-- The children are normalized one after the other. -/
theorem Inherited.normalizeChildren (hr : Inherited related)
    (h : ∀ parent t, related _ (normalize parent t) (normalize' parent t)) (t : Tree) :
    related _ (normalizeChildren normalize t) (normalizeChildren normalize' t) := by
  have hreplace (c : Tree) (b : Bool) : related _ (replace (normalize t.op?) c b)
      (replace (normalize' t.op?) c b) :=
    hr.bind (hr.bind (h t.op? c) fun next => hr.pure (next, b)) fun next => hr.pure _
  refine hr.bind ?_ fun rebuilt => hr.pure _
  cases t with
  | constant | symbol => exact hr.pure _
  | multiset op terms => exact hr.bind (hr.mapTerms hreplace terms [] false) fun _ => hr.pure _
  | single op arg => exact hr.bind (hreplace arg false) fun _ => hr.pure _
  | ordered op children => exact hr.bind (hr.mapM hreplace children false) fun _ => hr.pure _

end

/-! ## One rewrite -/

/-- What a rewrite that is counted changes. -/
theorem count?_eq_some {rule : String} {statistics statistics' : Statistics}
    (h : count? rule statistics = some statistics') :
    statistics'.steps = statistics.steps + 1 ∧ statistics'.passes = statistics.passes ∧
      (statistics'.ruleHits.map Prod.snd).sum = (statistics.ruleHits.map Prod.snd).sum + 1 := by
  obtain ⟨steps, hsteps, h⟩ := Option.bind_eq_some_iff.mp h
  obtain ⟨hits, hhits, h⟩ := Option.bind_eq_some_iff.mp h
  obtain rfl := Option.some.inj h
  exact ⟨(wordSum?_eq_some_iff.mp hsteps).2.symm, rfl, Entries.sum_insert? hhits⟩

/-- A count is beyond a machine word only where the number of rewrites is. -/
theorem count?_eq_none {rule : String} {statistics : Statistics}
    (hhits : (statistics.ruleHits.map Prod.snd).sum = statistics.steps)
    (h : count? rule statistics = none) : wordCount ≤ statistics.steps + 1 := by
  by_contra hlt
  have hsteps : wordSum? statistics.steps 1 = some (statistics.steps + 1) := if_pos (by omega)
  obtain ⟨hits, hinsert⟩ : ∃ hits, Entries.insert? rule statistics.ruleHits = some hits :=
    Entries.exists_insert? (by omega)
  simp [count?, hsteps, hinsert] at h

/-- The rewrite that is one too many fails the run, with what the buffer then holds. -/
theorem record_eq (h : s.toProgress.after? machine.config.traceLength step = some progress) :
    machine.record step s =
      if machine.config.maxSteps < progress.statistics.steps then
        some (.error (.failed (.nonTerminating machine.config.maxSteps progress.recent)),
          { s with toProgress := { progress with recent := [] } })
      else some (.ok (), { s with toProgress := progress }) := by
  have hrun : machine.record step s = (do
      if machine.config.maxSteps < progress.statistics.steps then
        modify fun s => { s with recent := [] }
        throw (.failed (.nonTerminating machine.config.maxSteps progress.recent)) : Run Unit)
      { s with toProgress := progress } := by
    rw [record, get_bind_apply, bind_of_ok (a := progress) (t := s) (by rw [h]; rfl),
      modify_bind_apply]
  rw [hrun]
  split <;> rfl

theorem record_of_none (h : s.toProgress.after? machine.config.traceLength step = none) :
    machine.record step s = some (.error (.halted .counter), s) := by
  rw [record, get_bind_apply]
  exact bind_of_error (by rw [h]; rfl)

theorem exists_of_record_eq_ok {a : Unit} (h : machine.record step s = some (.ok a, t)) :
    ∃ statistics, count? step.rule s.statistics = some statistics ∧
      statistics.steps ≤ machine.config.maxSteps ∧
      t = { s with
        recent := push machine.config.traceLength s.recent step, statistics, fired := true } := by
  cases hcount : count? step.rule s.statistics with
  | none =>
    rw [record_of_none (by rw [Progress.after?, hcount]; rfl)] at h
    cases h
  | some statistics =>
    rw [record_eq (by rw [Progress.after?, hcount]; rfl)] at h
    split at h
    · cases h
    · next hle =>
      obtain ⟨_, rfl⟩ := Prod.mk.inj (Option.some.inj h)
      exact ⟨statistics, rfl, Nat.le_of_not_lt hle, rfl⟩

/-! ## The buffer -/

/-- The step: of all the rewrites a buffer holds the last ones that it has room for. -/
theorem push_rtake (capacity : Nat) (all : List Tree.Step) (step : Tree.Step) :
    push capacity (all.rtake capacity) step = (all ++ [step]).rtake capacity := by
  cases capacity with
  | zero => rw [push, if_neg (Nat.lt_irrefl 0), List.rtake_zero, List.rtake_zero]
  | succ room =>
    rw [push, if_pos (Nat.succ_pos room), List.rtake_concat_succ]
    congr 1
    simp only [List.rtake, List.length_drop]
    split
    · next hfull =>
      rw [List.tail_drop]
      congr 1
      omega
    · next hroom =>
      congr 1
      omega

/-- The run. -/
theorem foldl_push (capacity : Nat) (all steps : List Tree.Step) :
    steps.foldl (push capacity) (all.rtake capacity) = (all ++ steps).rtake capacity := by
  induction steps generalizing all with
  | nil => rw [List.foldl_nil, List.append_nil]
  | cons step rest ih =>
    rw [List.foldl_cons, push_rtake, ih, List.append_assoc, List.singleton_append]

/-- A buffer with room for all the rewrites holds them all. -/
theorem foldl_push_of_le (h : steps.length ≤ capacity) :
    steps.foldl (push capacity) [] = steps := by
  have hlast := foldl_push capacity [] steps
  rw [List.rtake_nil, List.nil_append, List.rtake, Nat.sub_eq_zero_of_le h, List.drop_zero] at hlast
  exact hlast

/-! ## One pass more -/

theorem beginPass_of_lt (h : s.statistics.passes + 1 < wordCount) :
    beginPass s = some (.ok ⟨⟩, s.inPass (s.statistics.passes + 1)) := by
  have hcount : wordSum? s.statistics.passes 1 = some (s.statistics.passes + 1) := if_pos h
  rw [beginPass, get_bind_apply, lift_bind_of_ok (Attempt.orHalt_eq_ok_iff.mpr hcount)]
  rfl

theorem beginPass_of_not_lt (h : ¬ s.statistics.passes + 1 < wordCount) :
    beginPass s = some (.error (.halted .counter), s) := by
  rw [beginPass, get_bind_apply]
  refine lift_bind_of_error ?_
  rw [wordSum?, if_neg h]
  rfl

theorem eq_of_beginPass_eq_ok {a : PUnit} (h : beginPass s = some (.ok a, t)) :
    t = s.inPass (s.statistics.passes + 1) := by
  by_cases hlt : s.statistics.passes + 1 < wordCount
  · rw [beginPass_of_lt hlt] at h
    exact (Prod.mk.inj (Option.some.inj h)).2.symm
  · rw [beginPass_of_not_lt hlt] at h
    cases h

end Machine
end Symbolic
