import Mathlib.Data.List.Find
import Symbolic.Proofs.Compositional
import Symbolic.Proofs.Opposite
import Symbolic.Proofs.Progress
import Symbolic.Proofs.Strategy

/-! A comparison and its opposite are normalized side by side: the same rule rewrites both, and the
negation of what becomes of the one is what becomes of the other. -/
namespace Symbolic.Engine

open Rules Symbolic.Expr

variable {engine : Engine} {parent : Option Operator} {op : BinaryOp} {l r : Expr}

theorem candidates_comparison (hd : engine.registry = .default) (hop : op.isComparison = true) :
    engine.registry.candidates (.binary op) = comparisonRules op ∧
      engine.registry.candidates (.binary (oppositeOp op)) = comparisonRules op := by
  rw [hd, Registry.candidates_default, Registry.candidates_default]
  cases op with
  | eq | ne | lt | le => exact ⟨rfl, rfl⟩
  | floorDiv | trueDiv | mod | shr | pow | rol | ror => cases hop

/-- Neither comparison is rewritten, or both are by one rule. -/
theorem rewrite?_opposite (hd : engine.registry = .default) (hop : op.isComparison = true)
    (hw : (Expr.binary op l r).WellFormed) :
    (engine.rewrite? parent (.binary op l r) = .ok none ∧
      engine.rewrite? parent (opposite op l r) = .ok none) ∨
    ∃ step step', engine.rewrite? parent (.binary op l r) = .ok (some step) ∧
      engine.rewrite? parent (opposite op l r) = .ok (some step') ∧
      Opposed op l r step.after step'.after := by
  obtain ⟨hrules, hrules'⟩ := candidates_comparison hd hop
  rw [rewrite?_eq_find? hd hw rfl, rewrite?_eq_find? hd (wellFormed_opposite hw) op?_opposite,
    hrules, hrules', List.find?_congr fun rule hm => applies_opposite hm]
  cases hfind : (comparisonRules op).find? fun rule =>
      rule.applies ⟨parent, engine.config⟩ (.binary op l r) with
  | none => exact Or.inl ⟨rfl, rfl⟩
  | some rule =>
    have happlies := List.find?_some hfind
    obtain ⟨after, after', hafter, hafter', hopposed⟩ :=
      exists_opposed hop (List.mem_of_find?_eq_some hfind) happlies
    refine Or.inr ⟨⟨rule.name, .binary op l r, after⟩, ⟨rule.name, opposite op l r, after'⟩, ?_, ?_,
      hopposed⟩
    · simp only [hafter, Except.map]
    · simp only [hafter', Except.map]

theorem NormalForm.anywhere {e : Expr} (hd : engine.registry = .default)
    (h : engine.NormalForm parent e) (parent' : Option Operator) : engine.NormalForm parent' e := by
  obtain ⟨hs, hc⟩ := normalForm_iff.mp h
  rw [← rewrite?_eq_none_iff, rewrite?_anywhere hd parent parent', rewrite?_eq_none_iff] at hs
  exact normalForm_iff.mpr ⟨hs, hc⟩

section

variable {x : Expr}

theorem candidates_not (hd : engine.registry = .default) :
    engine.registry.candidates (.unary .not) = [foldUnary, negatedCompare] := by
  rw [hd, Registry.candidates_default]
  rfl

theorem rewrite?_not_constant (hd : engine.registry = .default) (value : Number) :
    engine.rewrite? parent (.logicalNot (.constant value)) = .ok (some
      ⟨"fold-unary", .logicalNot (.constant value), .constant (.ofBool !value.isTruthy)⟩) := by
  simp only [rewrite?, logicalNot, op?, candidates_not hd]
  rfl

theorem rewrite?_not_comparison (hd : engine.registry = .default) (hop : op.isComparison = true) :
    engine.rewrite? parent (.logicalNot (.binary op l r)) = .ok (some
      ⟨"negated-compare", .logicalNot (.binary op l r), opposite op l r⟩) := by
  have hfold : foldUnary.applies ⟨parent, engine.config⟩ (.logicalNot (.binary op l r)) = false :=
    rfl
  have happlies : negatedCompare.applies ⟨parent, engine.config⟩
      (.logicalNot (.binary op l r)) = true :=
    hop
  have hrewrite : negatedCompare.rewrite ⟨parent, engine.config⟩ (.logicalNot (.binary op l r)) =
      .ok (opposite op l r) := by
    simp [negatedCompare, logicalNot, ordered, negatedComparison?_eq hop]
  have hcandidates : engine.registry.candidates (.unary .not) =
      [foldUnary] ++ negatedCompare :: [] :=
    candidates_not hd
  have hearlier : ∀ rule ∈ [foldUnary],
      rule.applies ⟨parent, engine.config⟩ (.logicalNot (.binary op l r)) = true →
        rule.rewrite ⟨parent, engine.config⟩ (.logicalNot (.binary op l r)) =
          .ok (.logicalNot (.binary op l r)) := by
    intro rule hm ha
    rw [List.mem_singleton.mp hm, hfold] at ha
    cases ha
  have hne : opposite op l r ≠ .logicalNot (.binary op l r) := by
    intro hsame
    have ho := congrArg Expr.op? hsame
    rw [op?_opposite] at ho
    cases ho
  exact rewrite?_of_earlier rfl hcandidates hearlier happlies hrewrite hne

theorem rewrite?_not_other (hd : engine.registry = .default) (hx : x.isConstant = false)
    (ho : ∀ op ∈ x.op?, op.isComparison = false) :
    engine.rewrite? parent (.logicalNot x) = .ok none := by
  have hfold : foldUnary.applies ⟨parent, engine.config⟩ (.logicalNot x) = false := by
    cases x <;> first | rfl | cases hx
  have hnegated : negatedCompare.applies ⟨parent, engine.config⟩ (.logicalNot x) = false := by
    cases hop : x.op? with
    | none => simp [negatedCompare, logicalNot, ordered, hop]
    | some op => simpa [negatedCompare, logicalNot, ordered, hop] using ho op hop
  simp only [rewrite?, logicalNot, op?, candidates_not hd, firstRewrite]
  simp only [logicalNot] at hfold hnegated
  simp [hfold, hnegated]

end

/-- How the normal forms of a comparison and of its opposite differ: the negation of the one comes
to the other, unless the comparison came to two constants without order, or is one that stays
negated. -/
inductive Meets (engine : Engine) (root : Expr) (parent : Option Operator) (op : BinaryOp) :
    Expr → Expr → Prop
  | negation {n n' : Expr} (levels steps : Nat)
      (h : engine.Normalizes levels parent (.logicalNot n) n' steps) :
      Meets engine root parent op n n'
  | unordered {c d : Number} (hop : op = .lt ∨ op = .le)
      (hreach : engine.Reaches root (parent, .binary op (.constant c) (.constant d)))
      (h : c.numericCompare d = none) : Meets engine root parent op (.constant 0) (.constant 0)
  | stays {x : Expr} (hop : op = .ne) :
      Meets engine root parent op (.logicalNot (.logicalNot x)) (.logicalNot x)

section

variable {e n n' x a b root : Expr} {levels levels' steps steps' : Nat}

theorem normalForm_not_child (hx : engine.NormalForm parent x) (hd : engine.registry = .default) :
    ∀ c ∈ (Expr.logicalNot x).children, engine.NormalForm (Expr.logicalNot x).op? c := by
  intro c hm
  rw [List.mem_singleton.mp hm]
  exact hx.anywhere hd _

/-- The negation of anything but a constant or a comparison stays as it is. -/
theorem NormalForm.logicalNot (hx : engine.NormalForm parent x) (hd : engine.registry = .default)
    (hc : x.isConstant = false) (ho : ∀ op ∈ x.op?, op.isComparison = false) :
    engine.NormalForm parent (.logicalNot x) :=
  normalForm_iff.mpr
    ⟨rewrite?_eq_none_iff.mp (rewrite?_not_other hd hc ho), normalForm_not_child hx hd⟩

theorem NormalForm.not_not (hx : engine.NormalForm parent (.logicalNot x))
    (hd : engine.registry = .default) : engine.NormalForm parent (.logicalNot (.logicalNot x)) := by
  refine hx.logicalNot hd rfl ?_
  rintro op ⟨⟩
  rfl

theorem normalizes_not_constant (hd : engine.registry = .default) (value : Number) :
    ∃ levels steps, engine.Normalizes levels parent (.logicalNot (.constant value))
      (.constant (.ofBool !value.isTruthy)) steps := by
  have hvalue : engine.NormalForm none (.constant value) := normalForm_of_isAtomic rfl
  have hafter : engine.Normalizes 0 parent (.constant (.ofBool !value.isTruthy)) _ 0 := .atom rfl
  exact Normalizes.of_rewrite? (normalForm_not_child hvalue hd)
    (rewrite?_not_constant hd value) hafter

theorem normalForm_opposite (hd : engine.registry = .default) (hop : op.isComparison = true)
    (hw : (Expr.binary op l r).WellFormed) (h : engine.NormalForm parent (.binary op l r)) :
    engine.NormalForm parent (opposite op l r) := by
  obtain ⟨hs, hc⟩ := normalForm_iff.mp h
  rcases rewrite?_opposite hd hop hw with ⟨_, hr⟩ | ⟨_, _, hr, _⟩
  · refine normalForm_iff.mpr ⟨rewrite?_eq_none_iff.mp hr, fun c hm => ?_⟩
    exact (hc c (mem_children_opposite.mp hm)).anywhere hd _
  · rw [rewrite?_eq_none_iff.mpr hs] at hr
    cases hr

/-- The negation of a comparison that stays as it is comes to its opposite. -/
theorem normalizes_not_comparison (hd : engine.registry = .default) (hop : op.isComparison = true)
    (hw : (Expr.binary op l r).WellFormed) (h : engine.NormalForm parent (.binary op l r)) :
    ∃ levels steps, engine.Normalizes levels parent (.logicalNot (.binary op l r)) (opposite op l r)
      steps :=
  Normalizes.of_rewrite? (normalForm_not_child h hd) (rewrite?_not_comparison hd hop)
    ((normalForm_opposite hd hop hw h).normalizes (Nat.le_refl _))

theorem Follows.logicalNot {e' : Expr} (h : engine.Follows e e') :
    engine.Follows (.logicalNot e) (.logicalNot e') := by
  have hframe : Frame.Canonical (.unary .not) := trivial
  exact h.plug hframe

theorem meets_equalsZero (hd : engine.registry = .default)
    (h : engine.Normalizes levels parent (.logicalNot x) n steps)
    (h' : engine.Normalizes levels' parent (.logicalNot (.logicalNot x)) n' steps') :
    engine.Meets root parent op n n' := by
  obtain ⟨levels, steps, hn⟩ := (h.follows (rewrite?_anywhere hd)).logicalNot _ _ _ _ h'
  exact .negation levels steps hn

theorem meets_differsFromZero (hd : engine.registry = .default) (hop : op = .ne)
    (hx : engine.NormalForm parent x) (hw : x.WellFormed)
    (h : engine.Normalizes levels parent (.logicalNot (.logicalNot x)) n steps)
    (h' : engine.Normalizes levels' parent (.logicalNot x) n' steps') :
    engine.Meets root parent op n n' := by
  -- What becomes of `!x` is negated once more to get what becomes of `!!x`.
  obtain ⟨_, _, hn⟩ := (h'.follows (rewrite?_anywhere hd)).logicalNot _ _ _ _ h
  cases hc : x.isConstant with
  | true =>
    obtain ⟨value, rfl⟩ := isConstant_iff.mp hc
    obtain ⟨_, _, hnot⟩ := normalizes_not_constant hd value
    obtain ⟨rfl, _⟩ := h'.deterministic hnot
    obtain ⟨_, _, hagain⟩ := normalizes_not_constant hd (.ofBool !value.isTruthy)
    obtain ⟨rfl, _⟩ := hn.deterministic hagain
    obtain ⟨_, _, hthrice⟩ := normalizes_not_constant hd
      (.ofBool !(Number.ofBool !value.isTruthy).isTruthy)
    have htwice (b : Bool) : (!(Number.ofBool !(Number.ofBool b).isTruthy).isTruthy) = b := by
      cases b <;> rfl
    rw [htwice] at hthrice
    exact .negation _ _ hthrice
  | false =>
    by_cases ho : ∀ op ∈ x.op?, op.isComparison = false
    · have hnot := hx.logicalNot hd hc ho
      obtain ⟨rfl, _⟩ := h'.deterministic (hnot.normalizes (Nat.le_refl _))
      obtain ⟨rfl, _⟩ := h.deterministic ((hnot.not_not hd).normalizes (Nat.le_refl _))
      exact .stays hop
    · cases x with
      | binary other l r =>
        have hother : other.isComparison = true := by simpa [op?, Operator.isComparison] using ho
        obtain ⟨_, _, hnot⟩ := normalizes_not_comparison hd hother hw hx
        obtain ⟨rfl, _⟩ := h'.deterministic hnot
        have hopposite := normalForm_opposite hd hother hw hx
        have hwopposite := wellFormed_opposite hw
        obtain ⟨op', l', r', hsame, hop', hback⟩ :=
          exists_opposite_opposite (l := l) (r := r) hother
        rw [hsame] at hn hopposite hwopposite
        obtain ⟨_, _, hagain⟩ := normalizes_not_comparison hd hop' hwopposite hopposite
        rw [hback] at hagain
        obtain ⟨rfl, _⟩ := hn.deterministic hagain
        exact .negation _ _ h'
      | constant | symbol | nary | unary | conditional | call =>
        simp [op?, Operator.isComparison] at ho

theorem normalizes_children_opposite {image : Expr → Expr} {cost : Expr → Nat}
    (hd : engine.registry = .default) (hc : ∀ c ∈ (Expr.binary op a b).children,
      engine.Normalizes levels (Expr.binary op a b).op? c (image c) (cost c)) :
    ∀ c ∈ (opposite op a b).children,
      engine.Normalizes levels (opposite op a b).op? c (image c) (cost c) := fun c hm =>
  (hc c (mem_children_opposite.mp hm)).under (rewrite?_anywhere hd _ _)

/-- A comparison and its opposite have the same children, and then take the same steps. -/
theorem Normalizes.meets (h : engine.Normalizes levels parent e n steps)
    (hd : engine.registry = .default) (hop : op.isComparison = true) (hw : e.WellFormed)
    (he : e = .binary op a b) (hreach : engine.Reaches root (parent, e))
    (h' : engine.Normalizes levels' parent (opposite op a b) n' steps') :
    engine.Meets root parent op n n' := by
  induction h generalizing a b levels' steps' with
  | atom ha =>
    rw [he] at ha
    cases ha
  | @settled levels parent e image cost ha hc hr ih =>
    subst he
    have hc' := normalizes_children_opposite hd hc
    have hwell : ((Expr.binary op a b).rebuilt image).WellFormed :=
      wellFormed_rebuilt hw fun c hm => (hc c hm).wellFormed hd (hw.of_mem_children hm)
    have hnormal := (Normalizes.settled image cost ha hc hr).normalForm
    rw [rebuilt_binary] at hwell hr hnormal ⊢
    rcases rewrite?_opposite hd hop hwell with ⟨_, hr'⟩ | ⟨_, _, hsome, _⟩
    · rw [← rebuilt_opposite] at hr'
      obtain ⟨rfl, _⟩ := h'.deterministic (.of_settled image cost hc' hr')
      obtain ⟨_, _, hnot⟩ := normalizes_not_comparison hd hop hwell hnormal
      rw [rebuilt_opposite]
      exact .negation _ _ hnot
    · rw [hr] at hsome
      cases hsome
  | @rewritten levels steps parent e normal image cost step ha hc hr hn _ ih =>
    subst he
    have hc' := normalizes_children_opposite hd hc
    have hwell : ((Expr.binary op a b).rebuilt image).WellFormed :=
      wellFormed_rebuilt hw fun c hm => (hc c hm).wellFormed hd (hw.of_mem_children hm)
    have hnormals := normalForm_rebuilt_child fun c hm => (hc c hm).normalForm
    have hrebuilt : engine.Reaches root (parent, (Expr.binary op a b).rebuilt image) :=
      .rebuilt image cost hreach hc
    have hafter : engine.Reaches root (parent, step.after) := .rewritten hrebuilt hnormals hr
    have hwafter := (rewrites_of_rewrite? hd hr).wellFormed hwell
    have hnext := h'.next hc'
    rw [rebuilt_opposite] at hnext
    rw [rebuilt_binary] at hwell hr hnormals hrebuilt
    obtain ⟨hnone, _⟩ | ⟨first, second, hfirst, hsecond, hopposed⟩ := rewrite?_opposite hd hop hwell
    · rw [hr] at hnone
      cases hnone
    · rw [hr] at hfirst
      cases hfirst
      rw [hsecond] at hnext
      obtain hnone | ⟨step', _, _, hsame, hn'⟩ := hnext
      · cases hnone
      cases hsame
      generalize step.after = after at hopposed hn ih hafter hwafter
      generalize second.after = after' at hopposed hn'
      cases hopposed with
      | decided holds =>
        rw [normalizes_constant hn, normalizes_constant hn']
        obtain ⟨_, _, hnot⟩ := normalizes_not_constant hd (.ofBool holds)
        have htruthy : (Number.ofBool holds).isTruthy = holds := by cases holds <;> rfl
        rw [htruthy] at hnot
        exact .negation _ _ hnot
      | unordered hless hl hr hnone =>
        rw [normalizes_constant hn, normalizes_constant hn']
        rw [hl, hr] at hrebuilt
        exact .unordered hless hrebuilt hnone
      | moved positive negative => exact ih hwafter rfl hafter hn'
      | equalsZero heq hx => exact meets_equalsZero hd hn hn'
      | @differsFromZero x hne hx =>
        have hm : x ∈ (Expr.binary op (image a) (image b)).children := by
          rcases hx with ⟨hx, _⟩ | ⟨_, hx⟩
          · exact hx ▸ List.mem_cons_self
          · exact hx ▸ List.mem_cons_of_mem _ List.mem_cons_self
        exact meets_differsFromZero hd hne ((hnormals _ hm).anywhere hd _)
          (hwell.of_mem_children hm) hn
          hn'

/-- A negation has the normal form that the negation of the normal form has. -/
theorem Normalizes.negated {r : Expr} (hd : engine.registry = .default)
    (h : engine.Normalizes levels parent (.logicalNot e) r steps) :
    ∃ n, (∃ levels steps, engine.Normalizes levels parent e n steps) ∧
      ∃ levels steps, engine.Normalizes levels parent (.logicalNot n) r steps := by
  obtain ⟨_, n, _, hn⟩ := h.child List.mem_cons_self
  have hn := hn.under (rewrite?_anywhere hd _ parent)
  exact ⟨n, ⟨_, _, hn⟩, (hn.follows (rewrite?_anywhere hd)).logicalNot _ _ _ _ h⟩

/-- The negation of a comparison is normalized like the opposite comparison, with two exceptions. -/
theorem normalizes_negated {r r' : Expr} (hd : engine.registry = .default)
    (hop : op.isComparison = true) (hw : (Expr.binary op a b).WellFormed)
    (h : engine.Normalizes levels none (.logicalNot (.binary op a b)) r steps)
    (h' : engine.Normalizes levels' none (opposite op a b) r' steps') :
    r = r' ∨
    ((op = .lt ∨ op = .le) ∧ ∃ c d : Number,
      engine.Reaches (.binary op a b) (none, .binary op (.constant c) (.constant d)) ∧
        c.numericCompare d = none) ∨
    (op = .ne ∧ ∃ x, r' = .logicalNot x) := by
  obtain ⟨n, ⟨_, _, hn⟩, _, _, hr⟩ := h.negated hd
  cases hn.meets hd hop hw rfl .root h' with
  | negation _ _ hnot => exact Or.inl (hr.deterministic hnot).1
  | unordered hless hreach hnone => exact Or.inr (Or.inl ⟨hless, _, _, hreach, hnone⟩)
  | stays hne => exact Or.inr (Or.inr ⟨hne, _, rfl⟩)

/-- Where `a == b` becomes `!x`, its opposite becomes `!!x`, which is negated once more. -/
theorem normalizes_negated_thrice {r : Expr} (hd : engine.registry = .default)
    (hw : (Expr.cmpEq a b).WellFormed)
    (h : engine.Normalizes levels none (.logicalNot (.cmpNe a b)) r steps)
    (h' : engine.Normalizes levels' none (.cmpEq a b) (.logicalNot x) steps') :
    r = .logicalNot (.logicalNot (.logicalNot x)) := by
  have htwice := h'.normalForm.not_not hd
  obtain ⟨n, ⟨_, _, hn⟩, _, _, hr⟩ := h.negated hd
  cases h'.meets hd rfl hw rfl .root hn with
  | negation _ _ hnot =>
    obtain ⟨rfl, _⟩ := hnot.deterministic (htwice.normalizes (Nat.le_refl _))
    exact (hr.deterministic ((htwice.not_not hd).normalizes (Nat.le_refl _))).1
  | stays hop => cases hop

/-- What `<` or `<=` becomes is a constant or the same comparison of other sides, and then the
opposite comparison becomes the opposite of that. -/
theorem Reaches.opposite {occurrence : Occurrence} (hd : engine.registry = .default)
    (hop : op = .lt ∨ op = .le) (hw : (Expr.binary op a b).WellFormed)
    (h : engine.Reaches (.binary op a b) occurrence) (ho : occurrence.1 = none) :
    occurrence.2.isConstant = true ∨ ∃ l r, occurrence.2 = .binary op l r ∧
      (Expr.binary op l r).WellFormed ∧
        engine.Reaches (Rules.opposite op a b) (none, Rules.opposite op l r) := by
  induction h with
  | root => exact Or.inr ⟨a, b, rfl, hw, .root⟩
  | child _ hc =>
    rw [children_of_isAtomic (by simpa [isAtomic] using ho)] at hc
    cases hc
  | rebuilt image cost _ hc ih =>
    obtain hconstant | ⟨l, r, rfl, hwell, hreach⟩ := ih ho
    · obtain ⟨value, rfl⟩ := isConstant_iff.mp hconstant
      exact Or.inl rfl
    · refine Or.inr ⟨image l, image r, rebuilt_binary image, ?_, ?_⟩
      · rw [← rebuilt_binary]
        exact wellFormed_rebuilt hwell fun c hm =>
          (hc c hm).wellFormed hd (hwell.of_mem_children hm)
      · rw [← rebuilt_opposite]
        exact .rebuilt image cost hreach (normalizes_children_opposite hd hc)
  | @rewritten parent e step _ hc hr ih =>
    obtain hconstant | ⟨l, r, rfl, hwell, hreach⟩ := ih ho
    · obtain ⟨value, rfl⟩ := isConstant_iff.mp hconstant
      cases hr
    · have hcomparison : op.isComparison = true := by rcases hop with rfl | rfl <;> rfl
      have hwafter := (rewrites_of_rewrite? hd hr).wellFormed hwell
      have hc' : ∀ c ∈ (Rules.opposite op l r).children,
          engine.NormalForm (Rules.opposite op l r).op? c := fun c hm =>
        (hc c (mem_children_opposite.mp hm)).anywhere hd _
      obtain rfl := ho
      obtain ⟨hnone, _⟩ | ⟨first, second, hfirst, hsecond, hopposed⟩ :=
        rewrite?_opposite hd hcomparison hwell
      · rw [hr] at hnone
        cases hnone
      rw [hr] at hfirst
      cases hfirst
      have hafter := hreach.rewritten hc' hsecond
      generalize step.after = after at hopposed hwafter
      generalize second.after = after' at hopposed hafter
      cases hopposed with
      | decided | unordered => exact Or.inl rfl
      | moved positive negative => exact Or.inr ⟨positive, negative, rfl, hwafter, hafter⟩
      | equalsZero heq | differsFromZero heq => simp [heq] at hop

theorem rewrite?_unordered (hd : engine.registry = .default) (hop : op = .lt ∨ op = .le)
    {c d : Number} (h : c.numericCompare d = none) :
    engine.rewrite? parent (.binary op (.constant c) (.constant d)) = .ok (some
      ⟨"fold-binary", .binary op (.constant c) (.constant d), .constant 0⟩) := by
  have hcomparison : op.isComparison = true := by rcases hop with rfl | rfl <;> rfl
  have hcandidates : engine.registry.candidates (.binary op) =
      [] ++ foldBinary :: (comparisonRules op).tail := by
    rw [(candidates_comparison hd hcomparison).1, comparisonRules]
    split <;> rfl
  have hfold : foldBinary.rewrite ⟨parent, engine.config⟩ (.binary op (.constant c) (.constant d)) =
      .ok (.constant 0) := by
    rcases hop with rfl | rfl <;> simp [foldBinary, folded, BinaryOp.eval, h, Number.ofBool]
  have hne : Expr.constant 0 ≠ .binary op (.constant c) (.constant d) := by
    intro hsame
    cases hsame
  exact rewrite?_of_earlier rfl hcandidates (List.forall_mem_nil _) rfl hfold hne

theorem normalizes_unordered (hd : engine.registry = .default) (hop : op = .lt ∨ op = .le)
    {c d : Number} (hnone : c.numericCompare d = none)
    (h : engine.Normalizes levels parent (.binary op (.constant c) (.constant d)) n steps) :
    n = .constant 0 := by
  have hc : ∀ x ∈ (Expr.binary op (.constant c) (.constant d)).children,
      engine.NormalForm (Expr.binary op (.constant c) (.constant d)).op? x := by
    intro x hm
    simp only [children, ordered, List.mem_cons, List.not_mem_nil, or_false] at hm
    rcases hm with rfl | rfl <;> exact normalForm_of_isAtomic rfl
  have hafter : engine.Normalizes 0 parent (.constant 0) _ 0 := .atom rfl
  obtain ⟨_, _, hzero⟩ := Normalizes.of_rewrite? hc (rewrite?_unordered hd hop hnone) hafter
  exact (h.deterministic hzero).1

/-- Where two constants without order are compared, the comparison and its opposite are both
false. -/
theorem Reaches.unordered {c d : Number} {r r' : Expr} (hd : engine.registry = .default)
    (hop : op = .lt ∨ op = .le) (hw : (Expr.binary op a b).WellFormed)
    (hreach : engine.Reaches (.binary op a b) (none, .binary op (.constant c) (.constant d)))
    (hnone : c.numericCompare d = none)
    (h : engine.Normalizes levels none (.logicalNot (.binary op a b)) r steps)
    (h' : engine.Normalizes levels' none (Rules.opposite op a b) r' steps') :
    r = .constant 1 ∧ r' = .constant 0 := by
  constructor
  · obtain ⟨n, ⟨_, _, hn⟩, _, _, hr⟩ := h.negated hd
    obtain ⟨_, _, hcompared⟩ := hreach.normalizes rfl hn
    obtain rfl := normalizes_unordered hd hop hnone hcompared
    obtain ⟨_, _, hnot⟩ := normalizes_not_constant hd 0
    exact (hr.deterministic hnot).1
  · obtain hconstant | ⟨l, r, hsame, _, hreach'⟩ := hreach.opposite hd hop hw rfl
    · cases hconstant
    cases hsame
    obtain ⟨_, _, hcompared⟩ := hreach'.normalizes rfl h'
    have hnone' : d.numericCompare c = none := by
      rw [Number.numericCompare_swap c d, hnone, Option.map_none]
    rcases hop with rfl | rfl
    · exact normalizes_unordered hd (Or.inr rfl) hnone' hcompared
    · exact normalizes_unordered hd (Or.inl rfl) hnone' hcompared

end

/-- In the course of its simplification the comparison itself, not one inside it, comes to comparing
two constants without order: one of them is a NaN. -/
def ComesToUnordered (config : Config) (op : BinaryOp) (a b : Expr) : Prop :=
  ∃ c d : Number, Reaches ⟨.default, config, true⟩ (.binary op a b)
    (none, .binary op (.constant c) (.constant d)) ∧ c.numericCompare d = none

section

variable {a b r r' : Expr} {config : Config}

theorem wellFormed_comparison (hwa : a.WellFormed) (hwb : b.WellFormed) :
    (Expr.binary op a b).WellFormed := by
  refine wellFormed_iff.mpr ⟨(fun _ hb => nomatch hb), fun c hm => ?_⟩
  simp only [children, ordered, List.mem_cons, List.not_mem_nil, or_false] at hm
  rcases hm with rfl | rfl
  · exact hwa
  · exact hwb

theorem negated_of_simplify (hop : op.isComparison = true) (hwa : a.WellFormed) (hwb : b.WellFormed)
    (h : simplify (.logicalNot (.binary op a b)) config = .ok r)
    (h' : simplify (opposite op a b) config = .ok r') :
    r = r' ∨ ((op = .lt ∨ op = .le) ∧ ComesToUnordered config op a b) ∨
      (op = .ne ∧ ∃ x, r' = .logicalNot x) := by
  obtain ⟨_, _, hn⟩ := normalizes_of_simplify h
  obtain ⟨_, _, hn'⟩ := normalizes_of_simplify h'
  exact normalizes_negated rfl hop (wellFormed_comparison hwa hwb) hn hn'

theorem negated_ordering (hop : op = .lt ∨ op = .le) (hwa : a.WellFormed) (hwb : b.WellFormed)
    (h : simplify (.logicalNot (.binary op a b)) config = .ok r)
    (h' : simplify (opposite op a b) config = .ok r') :
    ComesToUnordered config op a b ∧ r = .constant 1 ∧ r' = .constant 0 ∨
      ¬ ComesToUnordered config op a b ∧ r = r' := by
  by_cases hcomes : ComesToUnordered config op a b
  · obtain ⟨_, _, hn⟩ := normalizes_of_simplify h
    obtain ⟨_, _, hn'⟩ := normalizes_of_simplify h'
    have ⟨_, _, hreach, hnone⟩ := hcomes
    exact Or.inl ⟨hcomes, hreach.unordered rfl hop (wellFormed_comparison hwa hwb) hnone hn hn'⟩
  · have hcomparison : op.isComparison = true := by rcases hop with rfl | rfl <;> rfl
    obtain hsame | ⟨_, h⟩ | ⟨hne, _⟩ := negated_of_simplify hcomparison hwa hwb h h'
    · exact Or.inr ⟨hcomes, hsame⟩
    · exact absurd h hcomes
    · simp [hne] at hop

theorem negated_equality (hwa : a.WellFormed) (hwb : b.WellFormed)
    (h : simplify (.logicalNot (.cmpEq a b)) config = .ok r)
    (h' : simplify (.cmpNe a b) config = .ok r') : r = r' := by
  obtain hsame | ⟨hless, _⟩ | ⟨hne, _⟩ := negated_of_simplify rfl hwa hwb h h'
  · exact hsame
  · simp at hless
  · cases hne

theorem negated_difference (hwa : a.WellFormed) (hwb : b.WellFormed)
    (h : simplify (.logicalNot (.cmpNe a b)) config = .ok r)
    (h' : simplify (.cmpEq a b) config = .ok r') :
    (∃ x, r' = .logicalNot x ∧ r = .logicalNot (.logicalNot (.logicalNot x))) ∨
      (∀ x, r' ≠ .logicalNot x) ∧ r = r' := by
  by_cases hnot : ∃ x, r' = .logicalNot x
  · obtain ⟨x, rfl⟩ := hnot
    obtain ⟨_, _, hn⟩ := normalizes_of_simplify h
    obtain ⟨_, _, hn'⟩ := normalizes_of_simplify h'
    exact Or.inl ⟨x, rfl, normalizes_negated_thrice rfl (wellFormed_comparison hwa hwb) hn hn'⟩
  · obtain hsame | ⟨hless, _⟩ | ⟨_, hx⟩ := negated_of_simplify rfl hwa hwb h h'
    · exact Or.inr ⟨not_exists.mp hnot, hsame⟩
    · simp at hless
    · exact absurd hx hnot

end

/-- A negated comparison simplifies like the opposite one. But where two constants without order are
compared, neither `<` nor the opposite `<=` holds, and `a != b` has become `!!x` before it is
negated, where `a == b` becomes `!x`. -/
theorem simplify_negated_comparison {a b : Expr} {config : Config} (hwa : a.WellFormed)
    (hwb : b.WellFormed) :
    (∀ r r', simplify (.logicalNot (.cmpLt a b)) config = .ok r →
      simplify (.cmpLe b a) config = .ok r' →
      ComesToUnordered config .lt a b ∧ r = .constant 1 ∧ r' = .constant 0 ∨
        ¬ ComesToUnordered config .lt a b ∧ r = r') ∧
    (∀ r r', simplify (.logicalNot (.cmpLe a b)) config = .ok r →
      simplify (.cmpLt b a) config = .ok r' →
      ComesToUnordered config .le a b ∧ r = .constant 1 ∧ r' = .constant 0 ∨
        ¬ ComesToUnordered config .le a b ∧ r = r') ∧
    (∀ r r', simplify (.logicalNot (.cmpEq a b)) config = .ok r →
      simplify (.cmpNe a b) config = .ok r' → r = r') ∧
    (∀ r r', simplify (.logicalNot (.cmpNe a b)) config = .ok r →
      simplify (.cmpEq a b) config = .ok r' →
        (∃ x, r' = .logicalNot x ∧ r = .logicalNot (.logicalNot (.logicalNot x))) ∨
          (∀ x, r' ≠ .logicalNot x) ∧ r = r') := by
  refine ⟨fun r r' h h' => ?_, fun r r' h h' => ?_, fun r r' h h' => ?_, fun r r' h h' => ?_⟩
  · exact negated_ordering (Or.inl rfl) hwa hwb h h'
  · exact negated_ordering (Or.inr rfl) hwa hwb h h'
  · exact negated_equality hwa hwb h h'
  · exact negated_difference hwa hwb h h'

/-- `!(x + y * -1 < 0)` and `0 <= x + y * -1` both become `y <= x`. -/
theorem simplify_negated_difference :
    let x := Expr.symbol "x"
    let y := Expr.symbol "y"
    let sum := Expr.nary .add [(x, 1), (.nary .mul [(.int (-1), 1), (y, 1)], 1)]
    sum.WellFormed ∧ (Expr.int 0).WellFormed ∧
      simplify (.logicalNot (.cmpLt sum (.int 0))) = .ok (.cmpLe y x) ∧
      simplify (.cmpLe (.int 0) sum) = .ok (.cmpLe y x) ∧
        ¬ ComesToUnordered {} .lt sum (.int 0) := by
  intro x y sum
  have hw : sum.WellFormed := by decide
  have hzero : (Expr.int 0).WellFormed := by decide
  have hnegated : simplify (.logicalNot (.cmpLt sum (.int 0))) = .ok (.cmpLe y x) := by
    decide +kernel
  have hopposite : simplify (.cmpLe (.int 0) sum) = .ok (.cmpLe y x) := by decide +kernel
  refine ⟨hw, hzero, hnegated, hopposite, ?_⟩
  obtain ⟨_, hone, _⟩ | ⟨hordered, _⟩ :=
    (simplify_negated_comparison hw hzero).1 _ _ hnegated hopposite
  · cases hone
  · exact hordered

/-- A NaN is neither below itself nor equal to itself. -/
example :
    let nan := Expr.constant (.float .nan)
    simplify (.logicalNot (.cmpLt nan nan)) = .ok (.int 1) ∧
      simplify (.cmpLe nan nan) = .ok (.int 0) :=
  ⟨rfl, rfl⟩

/-- `x != 0` is `!!x` before it is negated, and three negations stay, where `x == 0` becomes one. -/
theorem simplify_negated_difference_from_zero :
    let x := Expr.symbol "x"
    let thrice := Expr.logicalNot (.logicalNot (.logicalNot x))
    x.WellFormed ∧ (Expr.int 0).WellFormed ∧
      simplify (.logicalNot (.cmpNe x (.int 0))) = .ok thrice ∧
      simplify (.cmpEq x (.int 0)) = .ok (.logicalNot x) ∧ thrice ≠ .logicalNot x :=
  ⟨by decide, by decide, rfl, rfl, by decide⟩

end Symbolic.Engine
