import Symbolic.Engine

/-! Parts of a run one after the other: the engine's functions as sequences, and how a sequence
ends. -/
namespace Symbolic

variable {α β : Type} {s t : State}

/-- Goes on with the value and the state of a part that has one, and fails with a part that
fails. -/
def Ended.andThen (part : Ended α) (next : α → State → Ended β) : Ended β :=
  match part with
  | (.error err, s) => (.error err, s)
  | (.ok a, s) => next a s

@[simp] theorem Ended.andThen_error (err : SimplifyError) (s : State)
    (next : α → State → Ended β) : Ended.andThen (.error err, s) next = (.error err, s) := rfl

@[simp] theorem Ended.andThen_ok (a : α) (s : State) (next : α → State → Ended β) :
    Ended.andThen (.ok a, s) next = next a s := rfl

theorem Ended.andThen_eq_ok {part : Ended α} {next : α → State → Ended β} {b : β} :
    Ended.andThen part next = (.ok b, t) ↔ ∃ a s, part = (.ok a, s) ∧ next a s = (.ok b, t) := by
  rcases part with ⟨err | a, s⟩
  · simp
  · constructor
    · intro h
      exact ⟨a, s, rfl, h⟩
    · rintro ⟨a, s, ⟨⟩, h⟩
      exact h

theorem Ended.andThen_eq_error {part : Ended α} {next : α → State → Ended β}
    {err : SimplifyError} :
    Ended.andThen part next = (.error err, t) ↔
      part = (.error err, t) ∨ ∃ a s, part = (.ok a, s) ∧ next a s = (.error err, t) := by
  rcases part with ⟨err' | a, s⟩
  · simp
  · constructor
    · intro h
      exact Or.inr ⟨a, s, rfl, h⟩
    · rintro (⟨⟨⟩⟩ | ⟨a, s, ⟨⟩, h⟩)
      exact h

namespace Engine

variable (engine : Engine) (parent : Option Operator)

theorem normalizeList_cons (normalize : Expr → State → Ended Expr) (e : Expr) (rest : List Expr)
    (s : State) :
    normalizeList normalize (e :: rest) s =
      Ended.andThen (normalize e s) fun n s =>
        Ended.andThen (normalizeList normalize rest s) fun ns s => (.ok (n :: ns), s) := by
  simp only [normalizeList]
  rcases normalize e s with ⟨err | n, s⟩
  · rfl
  · dsimp only [Ended.andThen_ok]
    rcases normalizeList normalize rest s with ⟨err | ns, s⟩ <;> rfl

theorem normalizeChildren_eq (normalize : Option Operator → Expr → State → Ended Expr) (e : Expr)
    (s : State) :
    normalizeChildren normalize e s =
      Ended.andThen (normalizeList (normalize e.op?) e.children s) fun children s =>
        (.ok (if children = e.children then e else e.withChildren children), s) := by
  simp only [normalizeChildren]
  rcases normalizeList (normalize e.op?) e.children s with ⟨err | children, s⟩ <;> rfl

/-- What is done with a node whose children are normal. -/
def afterChildren (normalize : Option Operator → Expr → State → Ended Expr) (rounds : Nat)
    (e : Expr) (s : State) : Ended Expr :=
  match engine.rewrite? parent e with
  | .error err => (.error err, s)
  | .ok none => (.ok e, s)
  | .ok (some step) =>
    Ended.andThen (engine.record step s) fun _ s =>
      settle engine normalize parent rounds step.after s

theorem settle_succ (normalize : Option Operator → Expr → State → Ended Expr) (rounds : Nat)
    (e : Expr) (s : State) :
    settle engine normalize parent (rounds + 1) e s =
      Ended.andThen (normalizeChildren normalize e s)
        (engine.afterChildren parent normalize rounds) := by
  simp only [settle]
  rcases normalizeChildren normalize e s with ⟨err | e, s⟩
  · rfl
  · dsimp only [Ended.andThen_ok]
    simp only [afterChildren]
    rcases engine.rewrite? parent e with err | step | step
    · rfl
    · rfl
    · dsimp only
      rcases engine.record step s with ⟨err | done, s⟩ <;> rfl

theorem normalize_of_isAtomic (levels : Nat) {e : Expr} (ha : e.isAtomic = true) (s : State) :
    engine.normalize levels parent e s = (.ok e, s) := by
  cases levels <;> rw [normalize, if_pos ha]

theorem normalize_zero {e : Expr} (ha : e.isAtomic = false) (s : State) :
    engine.normalize 0 parent e s = (.error engine.tooDeep, s) := by
  rw [normalize, if_neg (by simp [ha])]

theorem normalize_of_recalled {levels : Nat} {e n : Expr} (ha : e.isAtomic = false)
    (h : engine.recalled? s (parent, e) = some n) :
    engine.normalize (levels + 1) parent e s = (.ok n, s) := by
  rw [normalize, if_neg (by simp [ha]), h]

theorem normalize_of_not_recalled {levels : Nat} {e : Expr} (ha : e.isAtomic = false)
    (h : engine.recalled? s (parent, e) = none) :
    engine.normalize (levels + 1) parent e s =
      Ended.andThen (settle engine (engine.normalize levels) parent (s.remaining + 1) e s)
        fun n s => (.ok n, remember parent e n s) := by
  rw [normalize, if_neg (by simp [ha]), h]
  dsimp only
  rcases settle engine (engine.normalize levels) parent (s.remaining + 1) e s with
    ⟨err | n, s⟩ <;> rfl

/-- What holds of atoms, where no level is left and of what is recalled, and of a node that settles
if it holds one level below, holds of all normalization. -/
theorem normalize_induction {motive : Nat → Option Operator → Expr → State → Ended Expr → Prop}
    (atom : ∀ levels parent e s, e.isAtomic = true → motive levels parent e s (.ok e, s))
    (deep : ∀ parent e s, e.isAtomic = false → motive 0 parent e s (.error engine.tooDeep, s))
    (recalled : ∀ levels parent e s n, e.isAtomic = false →
      engine.recalled? s (parent, e) = some n → motive (levels + 1) parent e s (.ok n, s))
    (settled : ∀ levels parent e s, e.isAtomic = false → engine.recalled? s (parent, e) = none →
      (∀ parent e s, motive levels parent e s (engine.normalize levels parent e s)) →
      motive (levels + 1) parent e s
        (Ended.andThen (settle engine (engine.normalize levels) parent (s.remaining + 1) e s)
          fun n s => (.ok n, remember parent e n s)))
    (levels : Nat) (parent : Option Operator) (e : Expr) (s : State) :
    motive levels parent e s (engine.normalize levels parent e s) := by
  induction levels generalizing parent e s with
  | zero =>
    cases ha : e.isAtomic with
    | true => exact engine.normalize_of_isAtomic parent 0 ha s ▸ atom 0 parent e s ha
    | false => exact engine.normalize_zero parent ha s ▸ deep parent e s ha
  | succ levels ih =>
    cases ha : e.isAtomic with
    | true => exact engine.normalize_of_isAtomic parent _ ha s ▸ atom _ parent e s ha
    | false =>
      cases hm : engine.recalled? s (parent, e) with
      | some n =>
        exact normalize_of_recalled engine parent ha hm ▸ recalled levels parent e s n ha hm
      | none =>
        rw [normalize_of_not_recalled engine parent ha hm]
        exact settled levels parent e s ha hm ih

theorem runPasses_succ (rounds passes : Nat) (e : Expr) (s : State) :
    engine.runPasses (rounds + 1) passes e s =
      Ended.andThen (engine.normalize engine.config.maxDepth none e { s with memo := ∅ })
        fun n after =>
          if after.remaining = s.remaining then (.ok ⟨n, after.trace.reverse, passes + 1⟩, after)
          else engine.runPasses rounds (passes + 1) n after := by
  simp only [runPasses]
  rcases engine.normalize engine.config.maxDepth none e { s with memo := ∅ } with
    ⟨err | n, s⟩ <;> rfl

/-- Only the depth of an expression keeps a run from its first pass. -/
theorem run_eq (e : Expr) :
    engine.run e = if engine.config.maxDepth < e.depth then (.error engine.tooDeep, engine.start)
      else engine.runPasses (engine.config.maxSteps + 1) 0 e engine.start := by
  simp only [run, Expr.deeperThan_iff]

end Engine
end Symbolic
