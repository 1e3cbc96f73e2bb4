import Symbolic.Proofs.Normalization
import Symbolic.Proofs.Sequencing

/-! A successful part of a run computes the relation, whatever sound entries its memo has. -/
namespace Symbolic.Engine

/-- Every entry of a memo is a normal form of its key. -/
def MemoSound (engine : Engine) (memo : Memo) : Prop :=
  ∀ (occurrence : Occurrence) (normal : Expr), memo[occurrence]? = some normal →
    ∃ levels steps, engine.Normalizes levels occurrence.1 occurrence.2 normal steps

/-- At most `steps` rewrites lie between two states of a run, and just as many where nothing is
looked up. -/
structure Spends (engine : Engine) (before after : State) (steps : Nat) : Prop where
  recorded : after.trace.length + after.remaining = before.trace.length + before.remaining
  remaining_le : after.remaining ≤ before.remaining
  le_add : before.remaining ≤ after.remaining + steps
  exact : engine.recalls = false → before.remaining = after.remaining + steps

/-- A part of a run has found a normal form, the one of the relation. The nesting that the relation
needs is allowed where nothing is looked up. -/
def Computes (engine : Engine) (levels : Nat) (parent : Option Operator) (e normal : Expr)
    (before after : State) : Prop :=
  ∃ reach steps, levels ≤ reach ∧ (engine.recalls = false → reach = levels) ∧
    engine.Normalizes reach parent e normal steps ∧ engine.Spends before after steps ∧
    engine.MemoSound after.memo

variable {engine : Engine} {levels steps steps' : Nat} {parent : Option Operator}
  {e n : Expr} {s t u before after : State}

theorem memoSound_empty : engine.MemoSound ∅ := by
  intro occurrence normal h
  simp at h

theorem memoSound_insert {memo : Memo} (hs : engine.MemoSound memo)
    (h : engine.Normalizes levels parent e n steps) :
    engine.MemoSound (memo.insert (parent, e) n) := by
  intro occurrence normal hm
  simp only [Std.TreeMap.getElem?_insert] at hm
  split at hm
  · next hc =>
    cases hm
    rw [← Std.LawfulEqCmp.eq_of_compare hc]
    exact ⟨levels, steps, h⟩
  · exact hs occurrence normal hm

/-- A normal form is entered under itself too. -/
theorem memoSound_remember (hs : engine.MemoSound s.memo)
    (h : engine.Normalizes levels parent e n steps) :
    engine.MemoSound (remember parent e n s).memo :=
  memoSound_insert (memoSound_insert hs (h.normalForm.normalizes (Nat.le_refl _))) h

namespace Spends

theorem refl (engine : Engine) (s : State) : engine.Spends s s 0 :=
  ⟨rfl, Nat.le_refl _, Nat.le_refl _, fun _ => rfl⟩

theorem trans (h : engine.Spends s t steps) (h' : engine.Spends t u steps') :
    engine.Spends s u (steps + steps') where
  recorded := h'.recorded.trans h.recorded
  remaining_le := Nat.le_trans h'.remaining_le h.remaining_le
  le_add := by
    have := h.le_add
    have := h'.le_add
    omega
  exact hr := by
    have := h.exact hr
    have := h'.exact hr
    omega

theorem of_recalls (hr : engine.recalls = true) (s : State) (steps : Nat) :
    engine.Spends s s steps :=
  ⟨rfl, Nat.le_refl _, Nat.le_add_right _ _, fun h => by simp [hr] at h⟩

theorem remember (h : engine.Spends s t steps) (parent : Option Operator) (e n : Expr) :
    engine.Spends s (remember parent e n t) steps :=
  ⟨h.recorded, h.remaining_le, h.le_add, h.exact⟩

theorem record {step : Step} (h : engine.record step s = (.ok (), t)) : engine.Spends s t 1 := by
  simp only [Engine.record] at h
  cases hr : s.remaining with
  | zero => simp [hr] at h
  | succ remaining =>
    simp only [hr, Prod.mk.injEq, true_and] at h
    subst h
    exact ⟨by simp only [List.length_cons, hr]; omega, by simp [hr], by simp [hr],
      fun _ => by simp [hr]⟩

end Spends

theorem memo_of_record {step : Step} {result : Except SimplifyError Unit}
    (h : engine.record step s = (result, t)) : t.memo = s.memo := by
  simp only [Engine.record] at h
  split at h <;> cases h <;> rfl

theorem remaining_of_record {step : Step} (h : engine.record step s = (.ok (), t)) :
    t.remaining + 1 = s.remaining := by
  simp only [Engine.record] at h
  cases hr : s.remaining with
  | zero => simp [hr] at h
  | succ remaining =>
    simp only [hr, Prod.mk.injEq, true_and] at h
    subst h
    rfl

/-- What is known of a function that normalizes under an operator. -/
def Computing (engine : Engine) (levels : Nat) (parent : Option Operator)
    (normalize : Expr → State → Ended Expr) : Prop :=
  ∀ e before n after, engine.MemoSound before.memo → normalize e before = (.ok n, after) →
    engine.Computes levels parent e n before after

theorem Computing.normalizeList {normalize : Expr → State → Ended Expr}
    (hn : engine.Computing levels parent normalize) {es ns : List Expr}
    (hs : engine.MemoSound before.memo)
    (h : normalizeList normalize es before = (.ok ns, after)) :
    ∃ (reach : Nat) (image : Expr → Expr) (cost : Expr → Nat), levels ≤ reach ∧
      (engine.recalls = false → reach = levels) ∧ ns = es.map image ∧
      (∀ c ∈ es, engine.Normalizes reach parent c (image c) (cost c)) ∧
      engine.Spends before after (es.map cost).sum ∧ engine.MemoSound after.memo := by
  induction es generalizing ns before with
  | nil =>
    cases h
    exact ⟨levels, id, fun _ => 0, Nat.le_refl _, fun _ => rfl, rfl, by simp, .refl _ _, hs⟩
  | cons e rest ih =>
    simp only [normalizeList_cons] at h
    obtain ⟨n, between, hfirst, h⟩ := Ended.andThen_eq_ok.mp h
    obtain ⟨ns', last, hrest, h⟩ := Ended.andThen_eq_ok.mp h
    cases h
    obtain ⟨r, steps, hr, hplain, hnorm, hspend, hbetween⟩ := hn e before n between hs hfirst
    obtain ⟨r', image, cost, hr', hplain', rfl, hnorms, hspends, hlast⟩ := ih hbetween hrest
    -- An expression that comes again has the same normal form at the same cost.
    have again : ∀ c ∈ rest, c = e → n = image c ∧ steps = cost c := by
      rintro c hc rfl
      exact hnorm.deterministic (hnorms c hc)
    refine ⟨max r r', fun c => if c = e then n else image c,
      fun c => if c = e then steps else cost c, by omega, ?_, ?_, ?_, ?_, hlast⟩
    · intro hp
      rw [hplain hp, hplain' hp, Nat.max_self]
    · simp only [List.map_cons, if_true, List.cons.injEq, true_and]
      apply List.map_congr_left
      intro c hc
      split
      · next he => exact (again c hc he).1.symm
      · rfl
    · intro c hc
      dsimp only
      split
      · next he =>
        rw [he]
        exact hnorm.mono (Nat.le_max_left _ _)
      · next he =>
        have hc := (List.mem_cons.mp hc).resolve_left he
        exact (hnorms c hc).mono (Nat.le_max_right _ _)
    · have hsum : (rest.map fun c => if c = e then steps else cost c).sum =
          (rest.map cost).sum := by
        congr 1
        apply List.map_congr_left
        intro c hc
        split
        · next he => exact (again c hc he).2
        · rfl
      simpa only [List.map_cons, if_true, List.sum_cons, hsum] using hspend.trans hspends

theorem Computing.normalizeChildren {normalize : Option Operator → Expr → State → Ended Expr}
    (hn : ∀ parent, engine.Computing levels parent (normalize parent))
    (hs : engine.MemoSound before.memo)
    (h : normalizeChildren normalize e before = (.ok n, after)) :
    ∃ (reach : Nat) (image : Expr → Expr) (cost : Expr → Nat), levels ≤ reach ∧
      (engine.recalls = false → reach = levels) ∧ n = e.rebuilt image ∧
      (∀ c ∈ e.children, engine.Normalizes reach e.op? c (image c) (cost c)) ∧
      engine.Spends before after (e.children.map cost).sum ∧ engine.MemoSound after.memo := by
  simp only [normalizeChildren_eq] at h
  obtain ⟨children, between, hlist, h⟩ := Ended.andThen_eq_ok.mp h
  obtain ⟨reach, image, cost, hr, hplain, rfl, hnorms, hspends, hlast⟩ :=
    (hn e.op?).normalizeList hs hlist
  cases h
  exact ⟨reach, image, cost, hr, hplain, rfl, hnorms, hspends, hlast⟩

theorem Computing.settle {normalize : Option Operator → Expr → State → Ended Expr}
    (hn : ∀ parent, engine.Computing levels parent (normalize parent)) (rounds : Nat) :
    engine.Computing (levels + 1) parent (settle engine normalize parent rounds) := by
  induction rounds with
  | zero =>
    intro e before n after _ h
    cases h
  | succ rounds ih =>
    intro e before n after hs h
    simp only [settle_succ] at h
    obtain ⟨e', between, hchildren, h⟩ := Ended.andThen_eq_ok.mp h
    obtain ⟨reach, image, cost, hr, hplain, rfl, hnorms, hspends, hbetween⟩ :=
      Computing.normalizeChildren hn hs hchildren
    simp only [afterChildren] at h
    cases hrw : engine.rewrite? parent (e.rebuilt image) with
    | error err => simp [hrw] at h
    | ok found =>
      cases found with
      | none =>
        simp only [hrw] at h
        cases h
        exact ⟨reach + 1, _, by omega, fun hp => by rw [hplain hp],
          .of_settled image cost hnorms hrw, hspends, hbetween⟩
      | some step =>
        simp only [hrw] at h
        obtain ⟨done, recorded, hrecord, h⟩ := Ended.andThen_eq_ok.mp h
        have hrecorded : engine.MemoSound recorded.memo := by
          rw [memo_of_record hrecord]
          exact hbetween
        obtain ⟨reach', steps, hr', hplain', hnorm, hspend, hlast⟩ :=
          ih step.after recorded n after hrecorded h
        refine ⟨max reach' (reach + 1), (e.children.map cost).sum + 1 + steps, by omega, ?_, ?_,
          (hspends.trans (.record hrecord)).trans hspend, hlast⟩
        · intro hp
          rw [hplain hp, hplain' hp, Nat.max_self]
        · obtain ⟨m, hm⟩ : ∃ m, max reach' (reach + 1) = m + 1 :=
            ⟨max reach' (reach + 1) - 1, by omega⟩
          have ha := isAtomic_eq_false_of_rewrite? hrw
          simp only [Expr.isAtomic_rebuilt] at ha
          rw [hm]
          refine .rewritten image cost step ha (fun c hc => (hnorms c hc).mono (by omega)) hrw ?_
          exact hnorm.mono (by omega)

theorem computing_normalize (engine : Engine) (levels : Nat) (parent : Option Operator) :
    engine.Computing levels parent (engine.normalize levels parent) := by
  refine normalize_induction engine (motive := fun levels parent e before part => ∀ n after,
    engine.MemoSound before.memo → part = (.ok n, after) →
      engine.Computes levels parent e n before after) ?atom ?deep ?recalled ?settled levels parent
  case atom =>
    rintro levels parent e before ha n after hs ⟨⟩
    exact ⟨levels, 0, Nat.le_refl _, fun _ => rfl, .atom ha, .refl _ _, hs⟩
  case deep =>
    rintro parent e before _ n after _ ⟨⟩
  case recalled =>
    rintro levels parent e before found _ hm n after hs ⟨⟩
    simp only [recalled?] at hm
    split at hm
    · next hrecalls =>
      obtain ⟨reach, steps, hnorm⟩ := hs _ _ hm
      refine ⟨max reach (levels + 1), steps, by omega, ?_, hnorm.mono (by omega),
        .of_recalls hrecalls _ _, hs⟩
      intro hp
      rw [hrecalls] at hp
      cases hp
    · cases hm
  case settled =>
    intro levels parent e before _ _ ih n after hs h
    obtain ⟨n', settled, hsettle, h⟩ := Ended.andThen_eq_ok.mp h
    cases h
    obtain ⟨reach, steps, hr, hplain, hnorm, hspend, hlast⟩ :=
      Computing.settle ih _ e before n settled hs hsettle
    exact ⟨reach, steps, hr, hplain, hnorm, hspend.remember parent e n,
      memoSound_remember hlast hnorm⟩

end Symbolic.Engine
