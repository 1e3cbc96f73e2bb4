import Symbolic.Proofs.Lighter

/-! Nodes that the default rules are done with: none of them applies there, so that no operand is
left twice, and whatever is no constant is heavy. -/
namespace Symbolic

namespace Rules

theorem mem_candidates_default {op : Operator} {rule : Rule} :
    rule ∈ Registry.default.candidates op ↔ rule ∈ all ∧ rule.trigger.covers op = true := by
  simp only [Registry.candidates_default, List.mem_filter]

end Rules

namespace Engine

open Rules Symbolic.Expr

variable {engine : Engine} {parent : Option Operator} {e : Expr}

/-- A default rule gives a settled node back, wherever it is offered the node and applies. -/
theorem Settled.rewrite (h : engine.Settled parent e) (hd : engine.registry = .default)
    {op : Operator} (ho : e.op? = some op) {rule : Rule} (hm : rule ∈ Rules.all)
    (hc : rule.trigger.covers op = true) (ha : rule.applies ⟨parent, engine.config⟩ e = true) :
    rule.rewrite ⟨parent, engine.config⟩ e = .ok e := by
  refine h op ho rule ?_ ha
  rw [hd]
  exact mem_candidates_default.mpr ⟨hm, hc⟩

/-- The rule of absorption never gives its node back. -/
theorem Settled.absorbing?_eq_none (h : engine.Settled parent e)
    (hd : engine.registry = .default) : absorbing? e = none := by
  cases hv : absorbing? e with
  | none => rfl
  | some value =>
    cases e with
    | nary op terms =>
      have hm : shortCircuit ∈ Rules.all := by simp [Rules.all, foldingFamily]
      have hr := h.rewrite hd rfl hm (covers_of_absorbing hv) (by simp [shortCircuit, hv])
      simp [shortCircuit, hv] at hr
    | constant | symbol | unary | binary | conditional | call => cases hv

/-- The default rules are done with a node, and its children are heavy. -/
structure AtRest (engine : Engine) (parent : Option Operator) (e : Expr) : Prop where
  default : engine.registry = .default
  wellFormed : e.WellFormed
  settled : engine.Settled parent e
  heavy : ∀ c ∈ e.children, c.Everywhere Heavy

/-- At rest no default rule applies: it would make the node lighter, yet give it back. -/
theorem AtRest.applies_eq_false (h : engine.AtRest parent e) {op : Operator} (ho : e.op? = some op)
    {rule : Rule} (hm : rule ∈ Rules.all) (hc : rule.trigger.covers op = true) :
    rule.applies ⟨parent, engine.config⟩ e = false := by
  cases ha : rule.applies ⟨parent, engine.config⟩ e with
  | false => rfl
  | true =>
    have hr := h.settled.rewrite h.default ho hm hc ha
    have hrewrites : Rewrites engine.config.wordBits e e := by
      simp only [all_eq_early_append_late, List.mem_append] at hm
      rcases hm with hm | hm
      · exact described_of_mem_early hm _ op e e ho hc ha hr
      · rcases described_of_mem_late hm with rfl | hdescribed
        · exact rewrites_foldNary ha hr (h.settled.absorbing?_eq_none h.default)
        · exact hdescribed _ op e e ho hc ha hr
    exact (Nat.lt_irrefl _ (hrewrites.weight_lt h.wellFormed h.heavy)).elim

theorem AtRest.unary {op : UnaryOp} {arg : Expr} (h : engine.AtRest parent (.unary op arg)) :
    arg.isConstant = false := by
  have hm : foldUnary ∈ Rules.all := by simp [Rules.all, foldingFamily]
  have hfold := h.applies_eq_false rfl hm rfl
  cases hc : arg.isConstant with
  | false => rfl
  | true =>
    obtain ⟨value, rfl⟩ := isConstant_iff.mp hc
    cases hfold

theorem AtRest.binary {op : BinaryOp} {lhs rhs : Expr}
    (h : engine.AtRest parent (.binary op lhs rhs)) :
    lhs.isConstant = false ∨ rhs.isConstant = false := by
  have hm : foldBinary ∈ Rules.all := by simp [Rules.all, foldingFamily]
  have hfold := h.applies_eq_false rfl hm rfl
  exact Bool.and_eq_false_iff.mp hfold

theorem AtRest.conditional {test whenTrue whenFalse : Expr}
    (h : engine.AtRest parent (.conditional test whenTrue whenFalse)) :
    test.isConstant = false := by
  have hm : constantCondition ∈ Rules.all := by simp [Rules.all, foldingFamily]
  have hfold := h.applies_eq_false rfl hm rfl
  cases hc : test.isConstant with
  | false => rfl
  | true =>
    obtain ⟨value, rfl⟩ := isConstant_iff.mp hc
    cases hfold

section

variable {op : SemigroupOp} {terms : Bag}

theorem AtRest.ne_nil (h : engine.AtRest parent (.nary op terms)) : terms ≠ [] := by
  rintro rfl
  have hm : naryBase ∈ Rules.all := by simp [Rules.all, foldingFamily]
  cases h.applies_eq_false rfl hm rfl

theorem AtRest.ne_single (h : engine.AtRest parent (.nary op terms)) (child : Expr) :
    terms ≠ [(child, 1)] := by
  rintro rfl
  have hm : naryBase ∈ Rules.all := by simp [Rules.all, foldingFamily]
  cases h.applies_eq_false rfl hm rfl

/-- At most one constant is left, once, and it is not the identity. -/
theorem AtRest.constantEntries (h : engine.AtRest parent (.nary op terms)) :
    constantEntries terms = [] ∨ ∃ only count, constantEntries terms = [(only, count)] ∧
      count ≤ 1 ∧ only ≠ .constant op.identity := by
  have hm : foldNary ∈ Rules.all := by simp [Rules.all, foldingFamily]
  have hfold := h.applies_eq_false rfl hm rfl
  simp only [foldNary] at hfold
  split at hfold
  · next hnil => exact Or.inl hnil
  · next only count hone =>
    obtain ⟨hcount, honly⟩ := Bool.or_eq_false_iff.mp hfold
    exact Or.inr ⟨only, count, hone, Nat.not_lt.mp (of_decide_eq_false hcount),
      of_decide_eq_false honly⟩
  · cases hfold

/-- Constants alone would be folded. -/
theorem AtRest.exists_nonconstant (h : engine.AtRest parent (.nary op terms)) :
    ∃ x ∈ Bag.keys terms, x.isConstant = false := by
  by_contra hnone
  have hconstant : ∀ entry ∈ terms, entry.1.isConstant = true := by
    intro entry hm
    by_contra hc
    exact hnone ⟨entry.1, List.mem_map_of_mem hm, Bool.not_eq_true _ ▸ hc⟩
  have hentries : Rules.constantEntries terms = terms := List.filter_eq_self.mpr hconstant
  have hpos := h.wellFormed.canonical.2
  rcases h.constantEntries with hnil | ⟨only, count, hone, hcount, _⟩
  · exact h.ne_nil (hentries.symm.trans hnil)
  · rw [hentries] at hone
    subst hone
    obtain rfl : count = 1 := Nat.le_antisymm hcount (hpos _ List.mem_cons_self)
    exact h.ne_single only rfl

theorem AtRest.not_hasRepeated (h : engine.AtRest parent (.nary op terms))
    (hop : op ≠ .add ∧ op ≠ .mul) : hasRepeated (.nary op terms) = false := by
  by_cases hxor : op = .bitXor
  · have hm : involution ∈ Rules.all := by simp [Rules.all, semigroupFamily]
    subst hxor
    exact h.applies_eq_false rfl hm rfl
  · have hm : idempotent ∈ Rules.all := by simp [Rules.all, semigroupFamily]
    refine h.applies_eq_false rfl hm ?_
    cases op with
    | add => exact (hop.1 rfl).elim
    | mul => exact (hop.2 rfl).elim
    | bitXor => exact (hxor rfl).elim
    | bitAnd | bitOr | and | or => rfl

/-- No operand is left twice: copies cancel, collapse or are grouped, and constants are folded. -/
theorem AtRest.count_eq_one (h : engine.AtRest parent (.nary op terms)) {entry : Expr × Nat}
    (hm : entry ∈ terms) : entry.2 = 1 := by
  have hpos : 1 ≤ entry.2 := h.wellFormed.canonical.2 entry hm
  refine Nat.le_antisymm (Nat.not_lt.mp fun hrepeated => ?_) hpos
  by_cases hop : op = .add ∨ op = .mul
  · cases hc : entry.1.isConstant with
    | true =>
      have hentry : entry ∈ Rules.constantEntries terms := List.mem_filter.mpr ⟨hm, hc⟩
      rcases h.constantEntries with hnil | ⟨only, count, hone, hcount, _⟩
      · rw [hnil] at hentry
        cases hentry
      · rw [hone, List.mem_singleton] at hentry
        rw [hentry] at hrepeated
        exact Nat.not_lt.mpr hcount hrepeated
    | false =>
      have hrule : repetition ∈ Rules.all := by simp [Rules.all, factoringFamily]
      have hcovers : repetition.trigger.covers (.semigroup op) = true := by
        rcases hop with rfl | rfl <;> rfl
      have happlies := h.applies_eq_false rfl hrule hcovers
      have hany : repetition.applies ⟨parent, engine.config⟩ (.nary op terms) = true :=
        List.any_eq_true.mpr ⟨entry, hm, by simp [hrepeated, hc]⟩
      rw [hany] at happlies
      cases happlies
  · have hnone := h.not_hasRepeated (not_or.mp hop)
    have hany : hasRepeated (.nary op terms) = true :=
      List.any_eq_true.mpr ⟨entry, hm, decide_eq_true hrepeated⟩
    rw [hany] at hnone
    cases hnone

end

/-- Below an operation at rest there is a child that is no constant, or the operation is a call. -/
theorem AtRest.heavy_self (h : engine.AtRest parent e) : Heavy e := by
  have child (c : Expr) (hm : c ∈ e.children) (hn : c.isConstant = false) : 50 ≤ c.weight :=
    (everywhere_iff.mp (h.heavy c hm)).1 hn
  intro hn
  cases e with
  | constant value => cases hn
  | symbol name => exact Nat.le_refl _
  | nary op terms =>
    obtain ⟨x, hm, hx⟩ := h.exists_nonconstant
    have := child x hm hx
    have := weight_le_weightTerms h.wellFormed.canonical hm
    simp only [weight_nary]
    omega
  | unary op arg =>
    have := child arg List.mem_cons_self h.unary
    simp only [weight_unary]
    omega
  | binary op lhs rhs =>
    simp only [weight_binary]
    rcases h.binary with hl | hr
    · have := child lhs List.mem_cons_self hl
      omega
    · have := child rhs (List.mem_cons_of_mem _ List.mem_cons_self) hr
      omega
  | conditional test whenTrue whenFalse =>
    have := child test List.mem_cons_self h.conditional
    simp only [weight_conditional]
    omega
  | call callee args =>
    simp only [weight]
    omega

theorem NormalForm.heavy (h : engine.NormalForm parent e) (hd : engine.registry = .default)
    (hw : e.WellFormed) : e.Everywhere Heavy := by
  induction e using Expr.induction generalizing parent with
  | h e ih =>
    obtain ⟨hs, hc⟩ := normalForm_iff.mp h
    have hchildren : ∀ c ∈ e.children, c.Everywhere Heavy := by
      intro c hm
      exact ih c hm (hc c hm) (hw.of_mem_children hm)
    have hrest : engine.AtRest parent e := ⟨hd, hw, hs, hchildren⟩
    exact everywhere_iff.mpr ⟨hrest.heavy_self, hchildren⟩

theorem NormalForm.atRest (h : engine.NormalForm parent e) (hd : engine.registry = .default)
    (hw : e.WellFormed) : engine.AtRest parent e := by
  obtain ⟨hs, hc⟩ := normalForm_iff.mp h
  exact ⟨hd, hw, hs, fun c hm => (hc c hm).heavy hd (hw.of_mem_children hm)⟩

end Engine
end Symbolic
