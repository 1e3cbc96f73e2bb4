import Mathlib.Algebra.BigOperators.Group.List.Basic
import Mathlib.Algebra.Order.Ring.Int
import Symbolic.Proofs.FirstRewrite

/-! Normalization as a relation, without memo, trace and limits: it is deterministic, ends in normal
forms and leaves normal forms alone. -/
namespace Symbolic

namespace Expr

theorem rebuilt_congr {f g : Expr → Expr} {e : Expr} (h : ∀ c ∈ e.children, f c = g c) :
    e.rebuilt f = e.rebuilt g := by
  rw [rebuilt, rebuilt, List.map_congr_left h]

theorem depth_le_depthArgs {e : Expr} {args : List Expr} (h : e ∈ args) :
    e.depth ≤ depthArgs args := by
  induction h with
  | head rest => exact Nat.le_max_left _ _
  | tail b _ ih => exact Nat.le_trans ih (Nat.le_max_right _ _)

theorem depth_lt_of_mem_children {child e : Expr} (h : child ∈ e.children) :
    child.depth < e.depth := by
  rw [depth_eq e]
  exact Nat.lt_succ_of_le (depth_le_depthArgs h)

end Expr

namespace Engine

/-- An expression reaches a normal form in a number of rewrites. No more than `levels` operations
are nested on the way. -/
inductive Normalizes (engine : Engine) : Nat → Option Operator → Expr → Expr → Nat → Prop
  | atom {levels : Nat} {parent : Option Operator} {e : Expr} (ha : e.isAtomic = true) :
      Normalizes engine levels parent e e 0
  | settled {levels : Nat} {parent : Option Operator} {e : Expr} (image : Expr → Expr)
      (cost : Expr → Nat) (ha : e.isAtomic = false)
      (hc : ∀ c ∈ e.children, Normalizes engine levels e.op? c (image c) (cost c))
      (hr : engine.rewrite? parent (e.rebuilt image) = .ok none) :
      Normalizes engine (levels + 1) parent e (e.rebuilt image) (e.children.map cost).sum
  | rewritten {levels steps : Nat} {parent : Option Operator} {e normal : Expr}
      (image : Expr → Expr) (cost : Expr → Nat) (step : Step) (ha : e.isAtomic = false)
      (hc : ∀ c ∈ e.children, Normalizes engine levels e.op? c (image c) (cost c))
      (hr : engine.rewrite? parent (e.rebuilt image) = .ok (some step))
      (hn : Normalizes engine (levels + 1) parent step.after normal steps) :
      Normalizes engine (levels + 1) parent e normal ((e.children.map cost).sum + 1 + steps)

variable {engine : Engine} {levels levels' : Nat} {parent : Option Operator} {e n n' : Expr}
  {steps steps' : Nat}

theorem isAtomic_eq_false_of_rewrite? {step : Step}
    (h : engine.rewrite? parent e = .ok (some step)) : e.isAtomic = false := by
  cases ha : e.isAtomic with
  | false => rfl
  | true =>
    rw [rewrite?_of_isAtomic ha] at h
    cases h

/-- An atom settles too, as a node without children. -/
theorem Normalizes.of_settled (image : Expr → Expr) (cost : Expr → Nat)
    (hc : ∀ c ∈ e.children, engine.Normalizes levels e.op? c (image c) (cost c))
    (hr : engine.rewrite? parent (e.rebuilt image) = .ok none) :
    engine.Normalizes (levels + 1) parent e (e.rebuilt image) (e.children.map cost).sum := by
  cases ha : e.isAtomic with
  | false => exact .settled image cost ha hc hr
  | true =>
    have hnil := Expr.children_of_isAtomic ha
    rw [Expr.rebuilt_of_map_eq (by simp [hnil]), hnil]
    exact .atom ha

theorem normalForm_rebuilt_child {image : Expr → Expr}
    (h : ∀ c ∈ e.children, engine.NormalForm e.op? (image c)) :
    ∀ c ∈ (e.rebuilt image).children, engine.NormalForm (e.rebuilt image).op? c := by
  intro c hc
  obtain ⟨original, ho, rfl⟩ := Expr.mem_children_rebuilt hc
  simp only [Expr.op?_rebuilt]
  exact h original ho

theorem Normalizes.normalForm (h : engine.Normalizes levels parent e n steps) :
    engine.NormalForm parent n := by
  induction h with
  | atom ha => exact normalForm_of_isAtomic ha
  | settled image cost ha hc hr ih =>
    exact normalForm_iff.mpr ⟨rewrite?_eq_none_iff.mp hr, normalForm_rebuilt_child ih⟩
  | rewritten image cost step ha hc hr hn ihc ihn => exact ihn

theorem Normalizes.deterministic (h : engine.Normalizes levels parent e n steps)
    (h' : engine.Normalizes levels' parent e n' steps') : n = n' ∧ steps = steps' := by
  induction h generalizing levels' n' steps' with
  | atom ha =>
    cases h' with
    | atom => exact ⟨rfl, rfl⟩
    | settled _ _ ha' | rewritten _ _ _ ha' => simp [ha] at ha'
  | @settled levels parent e image cost ha hc hr ih =>
    cases h' with
    | atom ha' => simp [ha] at ha'
    | settled image' cost' _ hc' hr' =>
      have himage := Expr.rebuilt_congr fun c hm => (ih c hm (hc' c hm)).1
      have hcost := List.map_congr_left fun c hm => (ih c hm (hc' c hm)).2
      exact ⟨himage, by rw [hcost]⟩
    | rewritten image' cost' step' _ hc' hr' =>
      rw [Expr.rebuilt_congr fun c hm => (ih c hm (hc' c hm)).1, hr'] at hr
      cases hr
  | @rewritten levels parent e normal steps image cost step ha hc hr hn ihc ihn =>
    cases h' with
    | atom ha' => simp [ha] at ha'
    | settled image' cost' _ hc' hr' =>
      rw [Expr.rebuilt_congr fun c hm => (ihc c hm (hc' c hm)).1, hr'] at hr
      cases hr
    | rewritten image' cost' step' _ hc' hr' hn' =>
      rw [Expr.rebuilt_congr fun c hm => (ihc c hm (hc' c hm)).1, hr'] at hr
      cases hr
      have hcost := List.map_congr_left fun c hm => (ihc c hm (hc' c hm)).2
      obtain ⟨hnormal, hsteps⟩ := ihn hn'
      exact ⟨hnormal, by rw [hcost, hsteps]⟩

theorem normalizes_constant {value : Number}
    (h : engine.Normalizes levels parent (.constant value) n steps) : n = .constant value := by
  cases h with
  | atom => rfl
  | settled _ _ ha | rewritten _ _ _ ha => cases ha

theorem Normalizes.mono (h : engine.Normalizes levels parent e n steps) (hle : levels ≤ levels') :
    engine.Normalizes levels' parent e n steps := by
  induction h generalizing levels' with
  | atom ha => exact .atom ha
  | settled image cost ha hc hr ih =>
    obtain ⟨levels', rfl⟩ : ∃ m, levels' = m + 1 := ⟨levels' - 1, by omega⟩
    exact .settled image cost ha (fun c hm => ih c hm (by omega)) hr
  | rewritten image cost step ha hc hr hn ihc ihn =>
    obtain ⟨levels', rfl⟩ : ∃ m, levels' = m + 1 := ⟨levels' - 1, by omega⟩
    exact .rewritten image cost step ha (fun c hm => ihc c hm (by omega)) hr (ihn hle)

/-- A normal form is left as it is, if its own depth is allowed. -/
theorem NormalForm.normalizes (h : engine.NormalForm parent e) (hd : e.depth ≤ levels) :
    engine.Normalizes levels parent e e 0 := by
  induction e using Expr.induction generalizing levels parent with
  | h e ih =>
    cases ha : e.isAtomic with
    | true => exact .atom ha
    | false =>
      obtain ⟨hs, hc⟩ := normalForm_iff.mp h
      obtain ⟨levels, rfl⟩ : ∃ m, levels = m + 1 := ⟨levels - 1, by have := e.depth_pos; omega⟩
      have hchildren : ∀ c ∈ e.children, engine.Normalizes levels e.op? c (id c) 0 := by
        intro c hm
        have := Expr.depth_lt_of_mem_children hm
        exact ih c hm (hc c hm) (by omega)
      have hr : engine.rewrite? parent (e.rebuilt id) = .ok none := by
        rw [Expr.rebuilt_id]
        exact rewrite?_eq_none_iff.mpr hs
      simpa using Normalizes.settled id (fun _ => 0) ha hchildren hr

theorem Normalizes.child {c : Expr} (h : engine.Normalizes levels parent e n steps)
    (hc : c ∈ e.children) : ∃ levels n steps, engine.Normalizes levels e.op? c n steps := by
  cases h with
  | atom ha => simp [Expr.children_of_isAtomic ha] at hc
  | settled image cost _ hchildren => exact ⟨_, _, _, hchildren c hc⟩
  | rewritten image cost step _ hchildren => exact ⟨_, _, _, hchildren c hc⟩

/-- Over its normalized children a node is settled, or its rewrite has the same normal form. -/
theorem Normalizes.next {image : Expr → Expr} {cost : Expr → Nat}
    (h : engine.Normalizes levels parent e n steps)
    (hc : ∀ c ∈ e.children, engine.Normalizes levels' e.op? c (image c) (cost c)) :
    engine.rewrite? parent (e.rebuilt image) = .ok none ∨
      ∃ step levels steps, engine.rewrite? parent (e.rebuilt image) = .ok (some step) ∧
        engine.Normalizes levels parent step.after n steps := by
  have same {levels : Nat} {image' : Expr → Expr} {cost' : Expr → Nat}
      (hc' : ∀ c ∈ e.children, engine.Normalizes levels e.op? c (image' c) (cost' c)) :
      e.rebuilt image' = e.rebuilt image :=
    Expr.rebuilt_congr fun c hm => ((hc' c hm).deterministic (hc c hm)).1
  cases h with
  | atom ha => exact Or.inl (rewrite?_of_isAtomic (by rwa [Expr.isAtomic_rebuilt]))
  | settled image' cost' _ hc' hr => exact Or.inl (same hc' ▸ hr)
  | rewritten image' cost' step _ hc' hr hn => exact Or.inr ⟨step, _, _, same hc' ▸ hr, hn⟩

theorem normalizes_children_id (hl : e.depth ≤ levels)
    (hc : ∀ c ∈ e.children, engine.NormalForm e.op? c) :
    ∀ c ∈ e.children, engine.Normalizes levels e.op? c (id c) 0 := by
  intro c hm
  have := Expr.depth_lt_of_mem_children hm
  exact (hc c hm).normalizes (by omega)

/-- A node over normal forms is normalized to what its rewrite is normalized to. -/
theorem Normalizes.of_rewrite? {step : Step} (hc : ∀ c ∈ e.children, engine.NormalForm e.op? c)
    (hr : engine.rewrite? parent e = .ok (some step))
    (hn : engine.Normalizes levels parent step.after n steps) :
    ∃ levels steps, engine.Normalizes levels parent e n steps := by
  have hchildren := normalizes_children_id (Nat.le_max_right levels e.depth) hc
  have ha := isAtomic_eq_false_of_rewrite? hr
  rw [← e.rebuilt_id] at hr
  exact ⟨_, _, .rewritten id (fun _ => 0) step ha hchildren hr (hn.mono (by omega))⟩

/-- Over its normalized children a node has the normal form that it had before. -/
theorem Normalizes.rebuilt {image : Expr → Expr} {cost : Expr → Nat}
    (h : engine.Normalizes levels parent e n steps)
    (hc : ∀ c ∈ e.children, engine.Normalizes levels' e.op? c (image c) (cost c)) :
    ∃ levels steps, engine.Normalizes levels parent (e.rebuilt image) n steps := by
  obtain hr | ⟨step, _, _, hr, hn⟩ := h.next hc
  · obtain ⟨rfl, _⟩ := h.deterministic (.of_settled image cost hc hr)
    exact ⟨_, _, h.normalForm.normalizes (Nat.le_refl _)⟩
  · exact Normalizes.of_rewrite? (normalForm_rebuilt_child fun c hm => (hc c hm).normalForm) hr hn

/-- The relation reads only the rewrites of an engine. -/
theorem Normalizes.congr {engine' : Engine}
    (hrw : ∀ parent e, engine'.rewrite? parent e = engine.rewrite? parent e)
    (h : engine.Normalizes levels parent e n steps) :
    engine'.Normalizes levels parent e n steps := by
  induction h with
  | atom ha => exact .atom ha
  | settled image cost ha hc hr ih => exact .settled image cost ha ih ((hrw _ _).trans hr)
  | rewritten image cost step ha hc hr hn ihc ihn =>
    exact .rewritten image cost step ha ihc ((hrw _ _).trans hr) ihn

end Engine
end Symbolic
