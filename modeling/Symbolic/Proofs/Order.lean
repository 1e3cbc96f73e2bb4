import Symbolic.Expr.Occurrence

/-! The structural order is total, and equal only for equal expressions. -/
namespace Symbolic

/-- Three comparisons that fit together, as those of `a` with `b`, `b` with `c` and `a` with `c`. -/
structure Chained (ab bc ac : Ordering) : Prop where
  lt : ab = .lt → bc = .lt → ac = .lt
  left : ab = .eq → ac = bc
  right : bc = .eq → ac = ab

namespace Chained

theorem of_transOrd {α : Type} [Ord α] [Std.TransOrd α] (a b c : α) :
    Chained (compare a b) (compare b c) (compare a c) where
  lt := Std.TransCmp.lt_trans
  left h := Std.TransCmp.congr_left h
  right h := (Std.TransCmp.congr_right h).symm

/-- Comparisons fit together in a lexicographic order if they do in both of its parts. -/
theorem lex {ab bc ac ab' bc' ac' : Ordering} (h : Chained ab bc ac) (h' : Chained ab' bc' ac') :
    Chained (ab.then ab') (bc.then bc') (ac.then ac') where
  lt h₁ h₂ := by
    rw [Ordering.then_eq_lt] at h₁ h₂ ⊢
    rcases h₁ with h₁ | ⟨h₁, h₁'⟩
    · rcases h₂ with h₂ | ⟨h₂, _⟩
      · exact Or.inl (h.lt h₁ h₂)
      · exact Or.inl ((h.right h₂).trans h₁)
    · rcases h₂ with h₂ | ⟨h₂, h₂'⟩
      · exact Or.inl ((h.left h₁).trans h₂)
      · exact Or.inr ⟨(h.left h₁).trans h₂, h'.lt h₁' h₂'⟩
  left h₁ := by
    simp only [Ordering.then_eq_eq] at h₁
    rw [h.left h₁.1, h'.left h₁.2]
  right h₂ := by
    simp only [Ordering.then_eq_eq] at h₂
    rw [h.right h₂.1, h'.right h₂.2]

end Chained

instance : Std.TransOrd SemigroupOp :=
  inferInstanceAs (Std.TransCmp (compareOn SemigroupOp.ctorIdx))

instance : Std.TransOrd UnaryOp := inferInstanceAs (Std.TransCmp (compareOn UnaryOp.ctorIdx))

instance : Std.TransOrd BinaryOp := inferInstanceAs (Std.TransCmp (compareOn BinaryOp.ctorIdx))

theorem Binary64.compare_swap (x y : Binary64) : (compare x y).swap = compare y x :=
  (Std.OrientedOrd.eq_swap (a := y.rank) (b := x.rank)).symm

theorem Number.compare_swap (a b : Number) : (compare a b).swap = compare b a := by
  cases a with
  | int v =>
    cases b with
    | int w => exact (Std.OrientedOrd.eq_swap (a := w) (b := v)).symm
    | float w => rfl
  | float v =>
    cases b with
    | int w => rfl
    | float w => exact Binary64.compare_swap v w

theorem Number.compare_chained (a b c : Number) :
    Chained (compare a b) (compare b c) (compare a c) where
  left h := by rw [(compare_eq_iff a b).mp h]
  right h := by rw [(compare_eq_iff b c).mp h]
  lt hab hbc := by
    cases a with
    | int v =>
      cases c with
      | int x =>
        cases b with
        | int w => exact (Chained.of_transOrd v w x).lt hab hbc
        | float w => exact nomatch hbc
      | float x => rfl
    | float v =>
      cases b with
      | int w => exact nomatch hab
      | float w =>
        cases c with
        | int x => exact nomatch hbc
        | float x => exact (Chained.of_transOrd v.rank w.rank x.rank).lt hab hbc

namespace Expr

theorem compare_eq_of_form_ne {a b : Expr} (h : a.form ≠ b.form) :
    a.compare b = compare a.form b.form := by
  cases a <;> cases b <;> first | rfl | exact (h rfl).elim

theorem form_le_of_compare_lt {a b : Expr} (h : a.compare b = .lt) : a.form ≤ b.form := by
  by_cases hf : a.form = b.form
  · exact Nat.le_of_eq hf
  · rw [compare_eq_of_form_ne hf] at h
    exact Nat.le_of_lt (Nat.compare_eq_lt.mp h)

theorem compare_lt_of_form_lt {a b : Expr} (h : a.form < b.form) : a.compare b = .lt := by
  rw [compare_eq_of_form_ne (Nat.ne_of_lt h)]
  exact Nat.compare_eq_lt.mpr h

theorem compare_chained_of_form_ne {a b c : Expr} (h : ¬ (a.form = b.form ∧ b.form = c.form)) :
    Chained (a.compare b) (b.compare c) (a.compare c) where
  lt hab hbc := by
    have := form_le_of_compare_lt hab
    have := form_le_of_compare_lt hbc
    exact compare_lt_of_form_lt (by omega)
  left hab := by rw [(compare_eq_iff a b).mp hab]
  right hbc := by rw [(compare_eq_iff b c).mp hbc]

mutual

theorem compare_swap (a b : Expr) : (a.compare b).swap = b.compare a := by
  by_cases hf : a.form = b.form
  · cases a <;> cases b <;> simp [form] at hf <;>
      simp only [Expr.compare, Ordering.swap_then, Number.compare_swap, compare_swap _ _,
        compareTerms_swap _ _, compareArgs_swap _ _, ← Std.OrientedOrd.eq_swap]
  · rw [compare_eq_of_form_ne hf, compare_eq_of_form_ne (Ne.symm hf), ← Std.OrientedOrd.eq_swap]
termination_by structural a

theorem compareTerms_swap (a b : List (Expr × Nat)) :
    (compareTerms a b).swap = compareTerms b a := by
  match a, b with
  | [], [] => rfl
  | [], _ :: _ => rfl
  | _ :: _, [] => rfl
  | (e, n) :: rest, (e', n') :: rest' =>
    simp only [compareTerms, Ordering.swap_then, compare_swap e e', compareTerms_swap rest rest',
      ← Std.OrientedOrd.eq_swap]
termination_by structural a

theorem compareArgs_swap (a b : List Expr) : (compareArgs a b).swap = compareArgs b a := by
  match a, b with
  | [], [] => rfl
  | [], _ :: _ => rfl
  | _ :: _, [] => rfl
  | e :: rest, e' :: rest' =>
    simp only [compareArgs, Ordering.swap_then, compare_swap e e', compareArgs_swap rest rest']
termination_by structural a

end

mutual

/-- Forms that differ decide at once; one form is left to its operator and its children. -/
theorem compare_chained (a b c : Expr) :
    Chained (a.compare b) (b.compare c) (a.compare c) := by
  by_cases hf : a.form = b.form ∧ b.form = c.form
  · obtain ⟨hab, hbc⟩ := hf
    cases a <;> cases b <;> simp [form] at hab <;> cases c <;> simp [form] at hbc <;>
      simp only [Expr.compare]
    case constant => exact Number.compare_chained _ _ _
    case symbol => exact .of_transOrd _ _ _
    case nary => exact .lex (.of_transOrd _ _ _) (compareTerms_chained _ _ _)
    case unary => exact .lex (.of_transOrd _ _ _) (compare_chained _ _ _)
    case binary =>
      exact .lex (.of_transOrd _ _ _) (.lex (compare_chained _ _ _) (compare_chained _ _ _))
    case conditional =>
      exact .lex (compare_chained _ _ _) (.lex (compare_chained _ _ _) (compare_chained _ _ _))
    case call => exact .lex (compare_chained _ _ _) (compareArgs_chained _ _ _)
  · exact compare_chained_of_form_ne hf
termination_by structural a

theorem compareTerms_chained (a b c : List (Expr × Nat)) :
    Chained (compareTerms a b) (compareTerms b c) (compareTerms a c) := by
  match a, b, c with
  | [], b, c => cases b <;> cases c <;> constructor <;> simp [compareTerms]
  | _ :: _, [], c => cases c <;> constructor <;> simp [compareTerms]
  | _ :: _, _ :: _, [] => constructor <;> simp [compareTerms]
  | (e, n) :: rest, (e', n') :: rest', (e'', n'') :: rest'' =>
    exact .lex (compare_chained e e' e'')
      (.lex (.of_transOrd n n' n'') (compareTerms_chained rest rest' rest''))
termination_by structural a

theorem compareArgs_chained (a b c : List Expr) :
    Chained (compareArgs a b) (compareArgs b c) (compareArgs a c) := by
  match a, b, c with
  | [], b, c => cases b <;> cases c <;> constructor <;> simp [compareArgs]
  | _ :: _, [], c => cases c <;> constructor <;> simp [compareArgs]
  | _ :: _, _ :: _, [] => constructor <;> simp [compareArgs]
  | e :: rest, e' :: rest', e'' :: rest'' =>
    exact .lex (compare_chained e e' e'') (compareArgs_chained rest rest' rest'')
termination_by structural a

end

instance : Std.LawfulEqOrd Expr where
  compare_self {e} := (compare_eq_iff e e).mpr rfl
  eq_of_compare h := (compare_eq_iff _ _).mp h

instance : Std.TransOrd Expr where
  eq_swap {a b} := (compare_swap b a).symm
  isLE_trans {a b c} hab hbc := by
    have h : Chained (compare a b) (compare b c) (compare a c) := compare_chained a b c
    rw [Ordering.isLE_iff_eq_lt_or_eq_eq] at hab hbc ⊢
    rcases hab with hab | hab
    · rcases hbc with hbc | hbc
      · exact Or.inl (h.lt hab hbc)
      · exact Or.inl ((h.right hbc).trans hab)
    · rw [h.left hab]
      exact hbc

end Expr

theorem Operator.index_injective {a b : Operator} (h : a.index = b.index) : a = b := by
  have ha := all_getElem?_index a
  rw [h, all_getElem?_index b] at ha
  exact (Option.some.inj ha).symm

namespace Occurrence

instance : Std.TransCmp Occurrence.compare :=
  inferInstanceAs (Std.TransCmp
    (compareLex (compareOn fun o : Occurrence => o.1.map Operator.index) (compareOn Prod.snd)))

instance : Std.LawfulEqCmp Occurrence.compare where
  eq_of_compare {a b} h := by
    simp only [Occurrence.compare, Ordering.then_eq_eq] at h
    obtain ⟨ha, hb⟩ := h
    have ha := Option.map_injective (fun _ _ => Operator.index_injective)
      (Std.LawfulEqOrd.eq_of_compare ha)
    exact Prod.ext ha (Std.LawfulEqOrd.eq_of_compare hb)

end Occurrence
end Symbolic
