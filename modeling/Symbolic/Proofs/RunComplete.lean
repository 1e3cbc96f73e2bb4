import Symbolic.Proofs.RunSound

/-! A run finds each normal form of the relation that its limits allow, with or without its memo. -/
namespace Symbolic.Engine

/-- A function that normalizes finds a normal form, if its rewrites are allowed. -/
def Finds (engine : Engine) (normalize : Expr → State → Ended Expr) (e normal : Expr)
    (steps : Nat) : Prop :=
  ∀ before, engine.MemoSound before.memo → steps ≤ before.remaining →
    ∃ after, normalize e before = (.ok normal, after) ∧ engine.Spends before after steps ∧
      engine.MemoSound after.memo

variable {engine : Engine} {levels steps m rounds : Nat} {parent : Option Operator}
  {e n : Expr} {s before : State}

theorem exists_record (step : Step) (h : 1 ≤ s.remaining) :
    ∃ t, engine.record step s = (.ok (), t) := by
  simp only [record]
  cases hr : s.remaining with
  | zero => omega
  | succ remaining => exact ⟨_, rfl⟩

theorem finds_normalizeList {normalize : Expr → State → Ended Expr} {image : Expr → Expr}
    {cost : Expr → Nat} {es : List Expr}
    (h : ∀ c ∈ es, engine.Finds normalize c (image c) (cost c))
    (hs : engine.MemoSound before.memo) (hk : (es.map cost).sum ≤ before.remaining) :
    ∃ after, normalizeList normalize es before = (.ok (es.map image), after) ∧
      engine.Spends before after (es.map cost).sum ∧ engine.MemoSound after.memo := by
  induction es generalizing before with
  | nil => exact ⟨before, rfl, .refl _ _, hs⟩
  | cons e rest ih =>
    simp only [List.map_cons, List.sum_cons] at hk
    obtain ⟨between, hfirst, hspend, hbetween⟩ := h e List.mem_cons_self before hs (by omega)
    have hleft := hspend.le_add
    obtain ⟨after, hrest, hspends, hafter⟩ :=
      ih (fun c hc => h c (List.mem_cons_of_mem _ hc)) hbetween (by omega)
    refine ⟨after, ?_, ?_, hafter⟩
    · rw [normalizeList_cons, hfirst, Ended.andThen_ok, hrest, Ended.andThen_ok, List.map_cons]
    · simp only [List.map_cons, List.sum_cons]
      exact hspend.trans hspends

theorem finds_normalizeChildren {normalize : Option Operator → Expr → State → Ended Expr}
    {image : Expr → Expr} {cost : Expr → Nat}
    (h : ∀ c ∈ e.children, engine.Finds (normalize e.op?) c (image c) (cost c))
    (hs : engine.MemoSound before.memo) (hk : (e.children.map cost).sum ≤ before.remaining) :
    ∃ after, normalizeChildren normalize e before = (.ok (e.rebuilt image), after) ∧
      engine.Spends before after (e.children.map cost).sum ∧ engine.MemoSound after.memo := by
  obtain ⟨after, hlist, hspends, hafter⟩ := finds_normalizeList h hs hk
  refine ⟨after, ?_, hspends, hafter⟩
  rw [normalizeChildren_eq, hlist, Ended.andThen_ok, Expr.rebuilt]

/-- Rounds that suffice for a settled node, whatever the levels below it. -/
def SettlesIn (engine : Engine) (levels : Nat) (parent : Option Operator) (e normal : Expr)
    (steps : Nat) : Prop :=
  ∀ m rounds, levels ≤ m + 1 → steps < rounds →
    engine.Finds (settle engine (engine.normalize m) parent rounds) e normal steps

/-- An entry of the memo is the normal form that is sought, since there is only one. -/
theorem finds_normalize (h : engine.Normalizes levels parent e n steps)
    (hs : engine.SettlesIn levels parent e n steps) (hm : levels ≤ m) :
    engine.Finds (engine.normalize m parent) e n steps := by
  intro before hmemo hk
  cases ha : e.isAtomic with
  | true =>
    obtain ⟨rfl, rfl⟩ := h.deterministic (.atom ha : engine.Normalizes 0 parent e e 0)
    exact ⟨before, normalize_of_isAtomic engine parent m ha before, .refl _ _, hmemo⟩
  | false =>
    obtain ⟨m, rfl⟩ : ∃ k, m = k + 1 := by
      refine ⟨m - 1, ?_⟩
      cases h with
      | atom ha' => simp [ha] at ha'
      | settled | rewritten => omega
    cases hr : engine.recalled? before (parent, e) with
    | some found =>
      refine ⟨before, ?_, ?_, hmemo⟩
      · simp only [recalled?] at hr
        split at hr
        · obtain ⟨reach, steps', hfound⟩ := hmemo _ _ hr
          rw [normalize_of_recalled engine parent ha (by rw [recalled?, if_pos ‹_›, hr]),
            (hfound.deterministic h).1]
        · cases hr
      · simp only [recalled?] at hr
        split at hr
        · exact .of_recalls ‹_› _ _
        · cases hr
    | none =>
      obtain ⟨after, hsettle, hspend, hafter⟩ :=
        hs m (before.remaining + 1) hm (by omega) before hmemo hk
      refine ⟨remember parent e n after, ?_, hspend.remember parent e n,
        memoSound_remember hafter h⟩
      rw [normalize_of_not_recalled engine parent ha hr, hsettle, Ended.andThen_ok]

theorem finds_settle_settled {image : Expr → Expr} {cost : Expr → Nat}
    (hc : ∀ c ∈ e.children, engine.Finds (engine.normalize m e.op?) c (image c) (cost c))
    (hr : engine.rewrite? parent (e.rebuilt image) = .ok none) (hk : 0 < rounds) :
    engine.Finds (settle engine (engine.normalize m) parent rounds) e (e.rebuilt image)
      (e.children.map cost).sum := by
  intro before hmemo hremaining
  obtain ⟨rounds, rfl⟩ : ∃ k, rounds = k + 1 := ⟨rounds - 1, by omega⟩
  obtain ⟨after, hchildren, hspends, hafter⟩ := finds_normalizeChildren hc hmemo hremaining
  refine ⟨after, ?_, hspends, hafter⟩
  rw [settle_succ, hchildren, Ended.andThen_ok, afterChildren, hr]

theorem finds_settle_rewritten {image : Expr → Expr} {cost : Expr → Nat} {step : Step}
    (hc : ∀ c ∈ e.children, engine.Finds (engine.normalize m e.op?) c (image c) (cost c))
    (hr : engine.rewrite? parent (e.rebuilt image) = .ok (some step))
    (hn : engine.Finds (settle engine (engine.normalize m) parent rounds) step.after n steps) :
    engine.Finds (settle engine (engine.normalize m) parent (rounds + 1)) e n
      ((e.children.map cost).sum + 1 + steps) := by
  intro before hmemo hremaining
  obtain ⟨between, hchildren, hspends, hbetween⟩ := finds_normalizeChildren hc hmemo (by omega)
  have hleft := hspends.le_add
  obtain ⟨recorded, hrecord⟩ : ∃ t, engine.record step between = (.ok (), t) :=
    exists_record step (by omega)
  have hone := Spends.record hrecord
  have hleft' := hone.le_add
  have hrecorded : engine.MemoSound recorded.memo := by
    rw [memo_of_record hrecord]
    exact hbetween
  obtain ⟨after, hrest, hspend, hafter⟩ := hn recorded hrecorded (by omega)
  refine ⟨after, ?_, (hspends.trans hone).trans hspend, hafter⟩
  rw [settle_succ, hchildren, Ended.andThen_ok, afterChildren, hr]
  dsimp only
  rw [hrecord, Ended.andThen_ok, hrest]

theorem Normalizes.settlesIn (h : engine.Normalizes levels parent e n steps) :
    engine.SettlesIn levels parent e n steps := by
  induction h with
  | @atom levels parent e ha =>
    intro m rounds hm hk
    have hnil := Expr.children_of_isAtomic ha
    have hr : engine.rewrite? parent (e.rebuilt id) = .ok none := by
      rw [Expr.rebuilt_id]
      exact rewrite?_of_isAtomic ha
    have hc : ∀ c ∈ e.children, engine.Finds (engine.normalize m e.op?) c (id c) 0 := by simp [hnil]
    simpa [hnil] using finds_settle_settled hc hr hk
  | settled image cost ha hc hr ih =>
    intro m rounds hm hk
    exact finds_settle_settled
      (fun c hmem => finds_normalize (hc c hmem) (ih c hmem) (by omega)) hr (by omega)
  | rewritten image cost step ha hc hr hn ihc ihn =>
    intro m rounds hm hk
    obtain ⟨rounds, rfl⟩ : ∃ k, rounds = k + 1 := ⟨rounds - 1, by omega⟩
    exact finds_settle_rewritten
      (fun c hmem => finds_normalize (hc c hmem) (ihc c hmem) (by omega)) hr
      (ihn m rounds hm (by omega))

theorem Normalizes.finds (h : engine.Normalizes levels parent e n steps) (hm : levels ≤ m) :
    engine.Finds (engine.normalize m parent) e n steps :=
  finds_normalize h h.settlesIn hm

/-- A pass forgets the normal forms that earlier passes have found. -/
theorem Normalizes.pass (h : engine.Normalizes engine.config.maxDepth none e n steps)
    (hk : steps ≤ s.remaining) :
    ∃ t, engine.normalize engine.config.maxDepth none e { s with memo := ∅ } = (.ok n, t) ∧
      engine.Spends s t steps := by
  obtain ⟨t, hpass, hspend, _⟩ := h.finds (Nat.le_refl _) { s with memo := ∅ } memoSound_empty hk
  exact ⟨t, hpass, hspend.recorded, hspend.remaining_le, hspend.le_add, hspend.exact⟩

/-- A second pass over the normal form is needed only after a first one that rewrites. -/
theorem run_of_normalizes (h : engine.Normalizes engine.config.maxDepth none e n steps)
    (hd : e.depth ≤ engine.config.maxDepth) (hk : steps ≤ engine.config.maxSteps)
    (hagain : steps = 0 ∨ engine.Normalizes engine.config.maxDepth none n n 0) :
    ∃ o t, engine.run e = (.ok o, t) ∧ o.expr = n := by
  obtain ⟨after, hpass, hspend⟩ := h.pass (s := engine.start) hk
  rw [run_eq, if_neg (Nat.not_lt_of_le hd), runPasses_succ, hpass, Ended.andThen_ok]
  split
  · exact ⟨_, _, rfl, rfl⟩
  · next hdiffers =>
    have hle := hspend.le_add
    have hback := hspend.remaining_le
    have hagain := hagain.resolve_left fun hzero => hdiffers (by omega)
    have hsome : engine.start.remaining = engine.config.maxSteps := rfl
    obtain ⟨rounds, hrounds⟩ : ∃ k, engine.config.maxSteps = k + 1 :=
      ⟨engine.config.maxSteps - 1, by omega⟩
    obtain ⟨last, hpass', hspend'⟩ := hagain.pass (s := after) (Nat.zero_le _)
    have hle' := hspend'.le_add
    have hback' := hspend'.remaining_le
    rw [hrounds, runPasses_succ, hpass', Ended.andThen_ok, if_pos (by omega)]
    exact ⟨_, _, rfl, rfl⟩

end Symbolic.Engine
