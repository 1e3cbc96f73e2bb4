import Symbolic.NormalForm
import Symbolic.Proofs.Children

/-! The rule that rewrites a node is the first that changes it, and a settled node has none. -/
namespace Symbolic

namespace Engine

variable {engine : Engine} {ctx : Context} {e : Expr} {parent : Option Operator} {step : Step}

theorem firstRewrite_eq_none_iff {rules : List Rule} :
    firstRewrite ctx e rules = .ok none ↔
      ∀ rule ∈ rules, rule.applies ctx e = true → rule.rewrite ctx e = .ok e := by
  induction rules with
  | nil => simp [firstRewrite]
  | cons rule rest ih =>
    rw [List.forall_mem_cons, ← ih, firstRewrite]
    split
    · next ha =>
      cases hr : rule.rewrite ctx e with
      | error err => simp [ha]
      | ok next => by_cases hn : next = e <;> simp [ha, hn]
    · next ha => simp [ha]

/-- The rules before the one that rewrites give the node back or do not apply. -/
theorem exists_of_firstRewrite_eq_some {rules : List Rule}
    (h : firstRewrite ctx e rules = .ok (some step)) :
    ∃ earlier rule later, rules = earlier ++ rule :: later ∧
      (∀ r ∈ earlier, r.applies ctx e = true → r.rewrite ctx e = .ok e) ∧
      rule.applies ctx e = true ∧ rule.rewrite ctx e = .ok step.after ∧
      step.rule = rule.name ∧ step.before = e ∧ step.after ≠ e := by
  induction rules with
  | nil => simp [firstRewrite] at h
  | cons rule rest ih =>
    simp only [firstRewrite] at h
    by_cases ha : rule.applies ctx e = true
    · rw [if_pos ha] at h
      cases hr : rule.rewrite ctx e with
      | error err => simp [hr] at h
      | ok next =>
        by_cases hn : next = e
        · simp only [hr, hn, if_true] at h
          obtain ⟨earlier, found, later, rfl, hearlier, hfound⟩ := ih h
          refine ⟨rule :: earlier, found, later, rfl, ?_, hfound⟩
          intro r hm happlies
          rcases List.mem_cons.mp hm with rfl | hm
          · rw [hr, hn]
          · exact hearlier r hm happlies
        · simp only [hr, hn, if_false] at h
          cases h
          exact ⟨[], rule, rest, rfl, by simp, ha, hr, rfl, rfl, hn⟩
    · rw [if_neg ha] at h
      obtain ⟨earlier, found, later, rfl, hearlier, hfound⟩ := ih h
      refine ⟨rule :: earlier, found, later, rfl, ?_, hfound⟩
      intro r hm happlies
      rcases List.mem_cons.mp hm with rfl | hm
      · exact (ha happlies).elim
      · exact hearlier r hm happlies

/-- A rule that changes a node rewrites it, if the rules before it do not. -/
theorem firstRewrite_of_earlier {earlier later : List Rule} {rule : Rule} {next : Expr}
    (hearlier : ∀ r ∈ earlier, r.applies ctx e = true → r.rewrite ctx e = .ok e)
    (ha : rule.applies ctx e = true) (hr : rule.rewrite ctx e = .ok next) (hne : next ≠ e) :
    firstRewrite ctx e (earlier ++ rule :: later) = .ok (some ⟨rule.name, e, next⟩) := by
  induction earlier with
  | nil => simp only [List.nil_append, firstRewrite, ha, hr, hne, if_true, if_false]
  | cons other rest ih =>
    obtain ⟨hother, hrest⟩ := List.forall_mem_cons.mp hearlier
    rw [List.cons_append, firstRewrite, ih hrest]
    split
    · next happlies => simp only [hother happlies, if_true]
    · rfl

/-- The rules of a second list rewrite only what those of the first one leave alone. -/
theorem firstRewrite_append {rules rules' : List Rule}
    (h : firstRewrite ctx e (rules ++ rules') = .ok (some step)) :
    firstRewrite ctx e rules = .ok (some step) ∨
      (firstRewrite ctx e rules = .ok none ∧ firstRewrite ctx e rules' = .ok (some step)) := by
  induction rules with
  | nil => exact Or.inr ⟨rfl, h⟩
  | cons rule rest ih =>
    simp only [List.cons_append, firstRewrite] at h
    simp only [firstRewrite]
    by_cases ha : rule.applies ctx e = true
    · rw [if_pos ha] at h
      rw [if_pos ha]
      cases hr : rule.rewrite ctx e with
      | error err => simp [hr] at h
      | ok next =>
        by_cases hn : next = e
        · simp only [hr, hn, if_true] at h ⊢
          exact ih h
        · simp only [hr, hn, if_false] at h ⊢
          exact Or.inl h
    · rw [if_neg ha] at h
      rw [if_neg ha]
      exact ih h

theorem firstRewrite_congr {ctx' : Context} {rules : List Rule}
    (h : ∀ rule ∈ rules, rule.applies ctx e = rule.applies ctx' e ∧
      rule.rewrite ctx e = rule.rewrite ctx' e) :
    firstRewrite ctx e rules = firstRewrite ctx' e rules := by
  induction rules with
  | nil => rfl
  | cons rule rest ih =>
    obtain ⟨happlies, hrewrite⟩ := h rule List.mem_cons_self
    have hrest := ih fun r hm => h r (List.mem_cons_of_mem _ hm)
    rw [firstRewrite, firstRewrite, happlies, hrewrite, hrest]

theorem exists_of_firstRewrite_eq_error {rules : List Rule} {err : SimplifyError}
    (h : firstRewrite ctx e rules = .error err) :
    ∃ rule ∈ rules, rule.applies ctx e = true ∧ rule.rewrite ctx e = .error err := by
  induction rules with
  | nil => simp [firstRewrite] at h
  | cons rule rest ih =>
    have later (h : firstRewrite ctx e rest = .error err) :
        ∃ r ∈ rule :: rest, r.applies ctx e = true ∧ r.rewrite ctx e = .error err := by
      obtain ⟨r, hm, hr⟩ := ih h
      exact ⟨r, List.mem_cons_of_mem _ hm, hr⟩
    simp only [firstRewrite] at h
    split at h
    · next ha =>
      cases hr : rule.rewrite ctx e with
      | error err' =>
        simp only [hr, Except.error.injEq] at h
        subst h
        exact ⟨rule, List.mem_cons_self, ha, hr⟩
      | ok next =>
        by_cases hn : next = e
        · simp only [hr, hn, if_true] at h
          exact later h
        · simp [hr, hn] at h
    · exact later h

theorem rewrite?_eq_none_iff : engine.rewrite? parent e = .ok none ↔ engine.Settled parent e := by
  simp only [rewrite?, Settled]
  cases e.op? with
  | none => simp
  | some op => simp [firstRewrite_eq_none_iff]

theorem rewrite?_of_earlier {op : Operator} {earlier later : List Rule} {rule : Rule} {next : Expr}
    (ho : e.op? = some op) (hc : engine.registry.candidates op = earlier ++ rule :: later)
    (hearlier : ∀ r ∈ earlier, r.applies ⟨parent, engine.config⟩ e = true →
      r.rewrite ⟨parent, engine.config⟩ e = .ok e)
    (ha : rule.applies ⟨parent, engine.config⟩ e = true)
    (hr : rule.rewrite ⟨parent, engine.config⟩ e = .ok next) (hne : next ≠ e) :
    engine.rewrite? parent e = .ok (some ⟨rule.name, e, next⟩) := by
  rw [rewrite?, ho]
  simp only [hc]
  exact firstRewrite_of_earlier hearlier ha hr hne

theorem rewrite?_of_isAtomic (h : e.isAtomic = true) :
    engine.rewrite? parent e = .ok none := by
  simp only [Expr.isAtomic_eq, Option.isNone_iff_eq_none] at h
  rw [rewrite?, h]

theorem normalForm_iff :
    engine.NormalForm parent e ↔
      engine.Settled parent e ∧ ∀ c ∈ e.children, engine.NormalForm e.op? c :=
  Expr.forall_occurrences_iff (p := fun o => engine.Settled o.1 o.2)

theorem normalForm_of_isAtomic (h : e.isAtomic = true) : engine.NormalForm parent e := by
  rw [normalForm_iff, Expr.children_of_isAtomic h]
  exact ⟨rewrite?_eq_none_iff.mp (rewrite?_of_isAtomic h), by simp⟩

end Engine
end Symbolic
