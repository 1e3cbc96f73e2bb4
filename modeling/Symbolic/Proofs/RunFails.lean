import Symbolic.Proofs.Ranking

/-! A failing run: unless a limit cuts it off, it fails by a rule, on a node that normalization
reaches. -/
namespace Symbolic.Engine

/-- A rule fails on the way to a normal form: on an expression below the node, on the node over its
normalized children, or after it has been rewritten. -/
inductive Fails (engine : Engine) : Option Operator → Expr → SimplifyError → Prop
  | child {parent : Option Operator} {e c : Expr} {err : SimplifyError} (hc : c ∈ e.children)
      (h : Fails engine e.op? c err) : Fails engine parent e err
  | rule {parent : Option Operator} {e : Expr} {err : SimplifyError} {levels : Nat}
      (image : Expr → Expr) (cost : Expr → Nat)
      (hc : ∀ c ∈ e.children, engine.Normalizes levels e.op? c (image c) (cost c))
      (hr : engine.rewrite? parent (e.rebuilt image) = .error err) : Fails engine parent e err
  | rewritten {parent : Option Operator} {e : Expr} {err : SimplifyError} {levels : Nat}
      (image : Expr → Expr) (cost : Expr → Nat) (step : Step)
      (hc : ∀ c ∈ e.children, engine.Normalizes levels e.op? c (image c) (cost c))
      (hr : engine.rewrite? parent (e.rebuilt image) = .ok (some step))
      (h : Fails engine parent step.after err) : Fails engine parent e err

/-- The failures that come from the limits and not from a rule. -/
def CutOff (engine : Engine) (err : SimplifyError) : Prop :=
  err = engine.tooDeep ∨ IsNonTerminating err

variable {engine : Engine} {levels steps rounds passes : Nat} {parent : Option Operator}
  {e n : Expr} {s t : State} {err : SimplifyError}

/-- What has a normal form does not fail. -/
theorem Fails.not_normalizes (h : engine.Fails parent e err) :
    ¬ engine.Normalizes levels parent e n steps := by
  induction h generalizing levels n steps with
  | child hc _ ih =>
    intro hn
    obtain ⟨_, _, _, hchild⟩ := hn.child hc
    exact ih hchild
  | rule image cost hc hr =>
    intro hn
    rcases hn.next hc with hsettled | ⟨_, _, _, hstep, _⟩
    · simp [hr] at hsettled
    · simp [hr] at hstep
  | rewritten image cost step hc hr _ ih =>
    intro hn
    rcases hn.next hc with hsettled | ⟨_, _, _, hstep, hafter⟩
    · simp [hr] at hsettled
    · rw [hr] at hstep
      cases hstep
      exact ih hafter

/-- What is known of the failures of a function that normalizes under an operator. -/
def FailsOnly (engine : Engine) (parent : Option Operator) (normalize : Expr → State → Ended Expr) :
    Prop :=
  ∀ e s err t, engine.MemoSound s.memo → normalize e s = (.error err, t) →
    engine.CutOff err ∨ engine.Fails parent e err

theorem FailsOnly.normalizeList {normalize : Expr → State → Ended Expr} {es : List Expr}
    (hf : engine.FailsOnly parent normalize) (hn : engine.Computing levels parent normalize)
    (hs : engine.MemoSound s.memo) (h : normalizeList normalize es s = (.error err, t)) :
    engine.CutOff err ∨ ∃ c ∈ es, engine.Fails parent c err := by
  induction es generalizing s with
  | nil => cases h
  | cons e rest ih =>
    simp only [normalizeList_cons] at h
    rcases Ended.andThen_eq_error.mp h with hfirst | ⟨n, between, hfirst, h⟩
    · exact (hf e s err t hs hfirst).imp_right fun hfails => ⟨e, List.mem_cons_self, hfails⟩
    · obtain ⟨_, _, _, _, _, _, hbetween⟩ := hn e s n between hs hfirst
      rcases Ended.andThen_eq_error.mp h with hrest | ⟨ns, last, _, h⟩
      · refine (ih hbetween hrest).imp_right ?_
        rintro ⟨c, hc, hfails⟩
        exact ⟨c, List.mem_cons_of_mem _ hc, hfails⟩
      · cases h

theorem FailsOnly.normalizeChildren {normalize : Option Operator → Expr → State → Ended Expr}
    (hf : ∀ parent, engine.FailsOnly parent (normalize parent))
    (hn : ∀ parent, engine.Computing levels parent (normalize parent))
    (hs : engine.MemoSound s.memo) (h : normalizeChildren normalize e s = (.error err, t)) :
    engine.CutOff err ∨ engine.Fails parent e err := by
  simp only [normalizeChildren_eq] at h
  rcases Ended.andThen_eq_error.mp h with hlist | ⟨children, between, _, h⟩
  · refine ((hf e.op?).normalizeList (hn e.op?) hs hlist).imp_right ?_
    rintro ⟨c, hc, hfails⟩
    exact .child hc hfails
  · cases h

theorem cutOff_of_record {step : Step} (h : engine.record step s = (.error err, t)) :
    engine.CutOff err := by
  simp only [record] at h
  split at h
  · cases h
    exact Or.inr ⟨_, _, rfl⟩
  · cases h

theorem FailsOnly.settle {normalize : Option Operator → Expr → State → Ended Expr}
    (hf : ∀ parent, engine.FailsOnly parent (normalize parent))
    (hn : ∀ parent, engine.Computing levels parent (normalize parent)) (rounds : Nat) :
    engine.FailsOnly parent (settle engine normalize parent rounds) := by
  induction rounds with
  | zero =>
    intro e s err t _ h
    cases h
    exact Or.inl (Or.inr ⟨_, _, rfl⟩)
  | succ rounds ih =>
    intro e s err t hs h
    simp only [settle_succ] at h
    rcases Ended.andThen_eq_error.mp h with hchildren | ⟨e', between, hchildren, h⟩
    · exact normalizeChildren hf hn hs hchildren
    · obtain ⟨reach, image, cost, _, _, rfl, hnorms, _, hbetween⟩ :=
        Computing.normalizeChildren hn hs hchildren
      simp only [afterChildren] at h
      cases hrw : engine.rewrite? parent (e.rebuilt image) with
      | error err' =>
        simp only [hrw] at h
        cases h
        exact Or.inr (.rule image cost hnorms hrw)
      | ok found =>
        cases found with
        | none => simp [hrw] at h
        | some step =>
          simp only [hrw] at h
          rcases Ended.andThen_eq_error.mp h with hrecord | ⟨done, recorded, hrecord, h⟩
          · exact Or.inl (cutOff_of_record hrecord)
          · have hrecorded : engine.MemoSound recorded.memo := by
              rw [memo_of_record hrecord]
              exact hbetween
            exact (ih step.after recorded err t hrecorded h).imp_right
              (.rewritten image cost step hnorms hrw)

theorem failsOnly_normalize (engine : Engine) (levels : Nat) (parent : Option Operator) :
    engine.FailsOnly parent (engine.normalize levels parent) := by
  refine normalize_induction engine (motive := fun _ parent e s part => ∀ err t,
    engine.MemoSound s.memo → part = (.error err, t) →
    engine.CutOff err ∨ engine.Fails parent e err)
    ?atom ?deep ?recalled ?settled levels parent
  case atom =>
    rintro _ _ _ _ _ err t _ ⟨⟩
  case deep =>
    rintro _ _ _ _ err t _ ⟨⟩
    exact Or.inl (Or.inl rfl)
  case recalled =>
    rintro _ _ _ _ _ _ _ err t _ ⟨⟩
  case settled =>
    intro levels parent e s _ _ ih err t hs h
    rcases Ended.andThen_eq_error.mp h with hsettle | ⟨n, settled, _, h⟩
    · exact FailsOnly.settle ih (computing_normalize engine levels) _ e s err t hs hsettle
    · cases h

/-- A pass after the first one meets a normal form, where no rule fails. -/
theorem fails_of_runPasses (h : engine.runPasses rounds passes e s = (.error err, t)) :
    engine.CutOff err ∨ engine.Fails none e err := by
  induction rounds generalizing passes e s with
  | zero =>
    cases h
    exact Or.inl (Or.inr ⟨_, _, rfl⟩)
  | succ rounds ih =>
    simp only [runPasses_succ] at h
    rcases Ended.andThen_eq_error.mp h with hpass | ⟨n, after, hpass, h⟩
    · exact failsOnly_normalize engine _ none e _ err t memoSound_empty hpass
    · split at h
      · cases h
      · obtain ⟨_, _, _, hnorm, _⟩ := computes_pass hpass
        refine (ih h).imp_right fun hfails => ?_
        exact (hfails.not_normalizes (hnorm.normalForm.normalizes (Nat.le_refl _))).elim

theorem fails_of_run_eq_error (h : engine.run e = (.error err, t)) :
    engine.CutOff err ∨ engine.Fails none e err := by
  rw [run_eq] at h
  split at h
  · cases h
    exact Or.inl (Or.inl rfl)
  · exact fails_of_runPasses h

end Symbolic.Engine
