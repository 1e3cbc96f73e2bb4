import Symbolic.Proofs.RunComplete

/-! A rank that every rewrite lowers bounds the rewrites of a run. -/
namespace Symbolic.Engine

def IsNonTerminating (err : SimplifyError) : Prop :=
  ∃ limit recent, err = .nonTerminating limit recent

/-- A rank of the expressions of a kind that no rewrite leaves. Every rewrite of a node over normal
forms lowers it, and a node passes on what its children lose. -/
structure Ranking (engine : Engine) where
  rank : Expr → Nat
  Valid : Expr → Prop
  child {e c : Expr} : Valid e → c ∈ e.children → Valid c
  rebuilt {e : Expr} {f : Expr → Expr} :
    Valid e → (∀ c ∈ e.children, Valid (f c)) → Valid (e.rebuilt f)
  rank_rebuilt {e : Expr} {f : Expr → Expr} {cost : Expr → Nat} : Valid e →
    (∀ c ∈ e.children, rank (f c) + cost c ≤ rank c) →
      rank (e.rebuilt f) + (e.children.map cost).sum ≤ rank e
  rank_children {e : Expr} : Valid e → (e.children.map rank).sum ≤ rank e
  rewritten {parent : Option Operator} {e : Expr} {step : Step} : Valid e →
    (∀ c ∈ e.children, engine.NormalForm e.op? c) →
      engine.rewrite? parent e = .ok (some step) → Valid step.after ∧ rank step.after < rank e
  failed {parent : Option Operator} {e : Expr} {err : SimplifyError} :
    engine.rewrite? parent e = .error err → ¬ IsNonTerminating err

namespace Ranking

variable {engine : Engine} (ranking : engine.Ranking) {levels steps rounds : Nat}
  {parent : Option Operator} {e n : Expr} {s t : State} {err : SimplifyError}

/-- Each rewrite on the way to a normal form is paid for by the rank. -/
theorem normalizes (h : engine.Normalizes levels parent e n steps) (hv : ranking.Valid e) :
    ranking.Valid n ∧ ranking.rank n + steps ≤ ranking.rank e := by
  induction h with
  | atom => exact ⟨hv, Nat.le_refl _⟩
  | settled image cost ha hc hr ih =>
    have hchildren := fun c hm => ih c hm (ranking.child hv hm)
    exact ⟨ranking.rebuilt hv fun c hm => (hchildren c hm).1,
      ranking.rank_rebuilt hv fun c hm => (hchildren c hm).2⟩
  | rewritten image cost step ha hc hr hn ihc ihn =>
    have hchildren := fun c hm => ihc c hm (ranking.child hv hm)
    have hle := ranking.rank_rebuilt hv fun c hm => (hchildren c hm).2
    have hvalid := ranking.rebuilt hv fun c hm => (hchildren c hm).1
    have hnormal := normalForm_rebuilt_child fun c hm => (hc c hm).normalForm
    obtain ⟨hafter, hlt⟩ := ranking.rewritten hvalid hnormal hr
    obtain ⟨hend, hrest⟩ := ihn hafter
    exact ⟨hend, by omega⟩

/-- A function that normalizes does not run out of rewrites, if the rank allows for them. -/
def Lasts (normalize : Expr → State → Ended Expr) : Prop :=
  ∀ e s t err, ranking.Valid e → engine.MemoSound s.memo → ranking.rank e ≤ s.remaining →
    normalize e s = (.error err, t) → ¬ IsNonTerminating err

variable {ranking}

theorem lasts_normalizeList {normalize : Expr → State → Ended Expr} {es : List Expr}
    (hlasts : ranking.Lasts normalize) (hn : engine.Computing levels parent normalize)
    (hv : ∀ c ∈ es, ranking.Valid c) (hs : engine.MemoSound s.memo)
    (hrank : (es.map ranking.rank).sum ≤ s.remaining)
    (h : normalizeList normalize es s = (.error err, t)) : ¬ IsNonTerminating err := by
  induction es generalizing s with
  | nil => cases h
  | cons e rest ih =>
    simp only [List.map_cons, List.sum_cons] at hrank
    have he := hv e List.mem_cons_self
    simp only [normalizeList_cons] at h
    rcases Ended.andThen_eq_error.mp h with hfirst | ⟨n, between, hfirst, h⟩
    · exact hlasts e s t err he hs (by omega) hfirst
    · obtain ⟨reach, steps, _, _, hnorm, hspend, hbetween⟩ := hn e s n between hs hfirst
      have hpaid := (ranking.normalizes hnorm he).2
      have hleft := hspend.le_add
      rcases Ended.andThen_eq_error.mp h with hrest | ⟨ns, last, _, h⟩
      · exact ih (fun c hm => hv c (List.mem_cons_of_mem _ hm)) hbetween (by omega) hrest
      · cases h

theorem lasts_normalizeChildren {normalize : Option Operator → Expr → State → Ended Expr}
    (hlasts : ranking.Lasts (normalize e.op?))
    (hn : engine.Computing levels e.op? (normalize e.op?)) (hv : ranking.Valid e)
    (hs : engine.MemoSound s.memo) (hrank : ranking.rank e ≤ s.remaining)
    (h : normalizeChildren normalize e s = (.error err, t)) : ¬ IsNonTerminating err := by
  simp only [normalizeChildren_eq] at h
  rcases Ended.andThen_eq_error.mp h with hlist | ⟨children, between, _, h⟩
  · have hsum := ranking.rank_children hv
    exact lasts_normalizeList hlasts hn (fun c hm => ranking.child hv hm) hs (by omega) hlist
  · cases h

/-- The rounds outlast the rewrites that are allowed, and the rank outlasts neither. -/
theorem lasts_settle {normalize : Option Operator → Expr → State → Ended Expr}
    (hlasts : ∀ parent, ranking.Lasts (normalize parent))
    (hn : ∀ parent, engine.Computing levels parent (normalize parent)) (rounds : Nat)
    (hv : ranking.Valid e) (hs : engine.MemoSound s.memo) (hrank : ranking.rank e ≤ s.remaining)
    (hrounds : s.remaining < rounds)
    (h : settle engine normalize parent rounds e s = (.error err, t)) :
    ¬ IsNonTerminating err := by
  induction rounds generalizing e s with
  | zero => omega
  | succ rounds ih =>
    simp only [settle_succ] at h
    rcases Ended.andThen_eq_error.mp h with hchildren | ⟨e', between, hchildren, h⟩
    · exact lasts_normalizeChildren (hlasts e.op?) (hn e.op?) hv hs hrank hchildren
    · obtain ⟨reach, image, cost, _, _, rfl, hnorms, hspends, hbetween⟩ :=
        Computing.normalizeChildren hn hs hchildren
      have hpaid := fun c hm => ranking.normalizes (hnorms c hm) (ranking.child hv hm)
      have hvalid := ranking.rebuilt hv fun c hm => (hpaid c hm).1
      have hle := ranking.rank_rebuilt hv fun c hm => (hpaid c hm).2
      have hleft := hspends.le_add
      have hback := hspends.remaining_le
      simp only [afterChildren] at h
      cases hrw : engine.rewrite? parent (e.rebuilt image) with
      | error err' =>
        simp only [hrw] at h
        cases h
        exact ranking.failed hrw
      | ok found =>
        cases found with
        | none =>
          simp only [hrw] at h
          cases h
        | some step =>
          simp only [hrw] at h
          have hnormal := normalForm_rebuilt_child fun c hm => (hnorms c hm).normalForm
          obtain ⟨hafter, hlt⟩ := ranking.rewritten hvalid hnormal hrw
          obtain ⟨recorded, hrecord⟩ : ∃ u, engine.record step between = (.ok (), u) :=
            exists_record step (by omega)
          have hone := remaining_of_record hrecord
          have hmemo := memo_of_record hrecord
          rw [hrecord, Ended.andThen_ok] at h
          exact ih hafter (hmemo ▸ hbetween) (by omega) (by omega) h

theorem lasts_normalize (ranking : engine.Ranking) (levels : Nat) (parent : Option Operator) :
    ranking.Lasts (engine.normalize levels parent) := by
  refine normalize_induction engine (motive := fun _ _ e s part => ∀ t err, ranking.Valid e →
    engine.MemoSound s.memo → ranking.rank e ≤ s.remaining → part = (.error err, t) →
      ¬ IsNonTerminating err) ?atom ?deep ?recalled ?settled levels parent
  case atom =>
    rintro _ _ _ _ _ t err _ _ _ ⟨⟩
  case deep =>
    rintro _ _ _ _ t err _ _ _ ⟨⟩ ⟨limit, recent, ⟨⟩⟩
  case recalled =>
    rintro _ _ _ _ _ _ _ t err _ _ _ ⟨⟩
  case settled =>
    intro levels parent e s _ _ ih t err hv hs hrank h
    rcases Ended.andThen_eq_error.mp h with hsettle | ⟨n, settled, _, h⟩
    · exact lasts_settle ih (computing_normalize engine levels) _ hv hs hrank (Nat.lt_succ_self _)
        hsettle
    · cases h

theorem lasts_pass (hv : ranking.Valid e) (hrank : ranking.rank e ≤ s.remaining)
    (h : engine.normalize engine.config.maxDepth none e { s with memo := ∅ } = (.error err, t)) :
    ¬ IsNonTerminating err :=
  lasts_normalize ranking _ none e { s with memo := ∅ } t err hv memoSound_empty hrank h

/-- A run whose limit is at least the rank never runs out of rewrites. -/
theorem run_lasts (ranking : engine.Ranking) (hv : ranking.Valid e)
    (hrank : ranking.rank e ≤ engine.config.maxSteps)
    (h : engine.run e = (.error err, t)) : ¬ IsNonTerminating err := by
  rw [run_eq] at h
  split at h
  · cases h
    rintro ⟨limit, recent, ⟨⟩⟩
  · simp only [runPasses_succ] at h
    rcases Ended.andThen_eq_error.mp h with hpass | ⟨n, after, hpass, h⟩
    · exact lasts_pass (s := engine.start) hv hrank hpass
    · obtain ⟨reach, steps, _, hnorm, hspend⟩ := computes_pass hpass
      obtain ⟨hvalid, hpaid⟩ := ranking.normalizes hnorm hv
      have hleft : engine.config.maxSteps ≤ after.remaining + steps := hspend.le_add
      have hback : after.remaining ≤ engine.config.maxSteps := hspend.remaining_le
      split at h
      · cases h
      · next hdiffers =>
        have hdiffers : after.remaining ≠ engine.config.maxSteps := hdiffers
        obtain ⟨rounds, hrounds⟩ : ∃ k, engine.config.maxSteps = k + 1 :=
          ⟨engine.config.maxSteps - 1, by omega⟩
        rw [hrounds, runPasses_succ] at h
        rcases Ended.andThen_eq_error.mp h with hpass' | ⟨n', last, hpass', h⟩
        · exact lasts_pass hvalid (by omega) hpass'
        · rw [if_pos (pass_of_normalForm hnorm.normalForm hpass').2.1] at h
          cases h

end Ranking
end Symbolic.Engine
