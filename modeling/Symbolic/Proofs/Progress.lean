import Symbolic.Proofs.CommonFactor
import Symbolic.Proofs.Lighter

/-! A rule that applies to a node fails or changes it, so that no rule that applies is passed
over. -/
namespace Symbolic

namespace Bag

variable {bag : Bag}

/-- Fewer copies of one child are fewer children, if there are no more of any other. -/
theorem total_map_lt {f : Expr × Nat → Expr × Nat} (hle : ∀ entry ∈ bag, (f entry).2 ≤ entry.2)
    (h : ∃ entry ∈ bag, (f entry).2 < entry.2) : total (bag.map f) < total bag := by
  have total_le {rest : Bag} (hle : ∀ entry ∈ rest, (f entry).2 ≤ entry.2) :
      total (rest.map f) ≤ total rest := by
    induction rest with
    | nil => exact Nat.le_refl 0
    | cons entry rest ih =>
      obtain ⟨hentry, hrest⟩ := List.forall_mem_cons.mp hle
      exact Nat.add_le_add hentry (ih hrest)
  induction bag with
  | nil => simp at h
  | cons entry rest ih =>
    obtain ⟨hentry, hrest⟩ := List.forall_mem_cons.mp hle
    rw [List.map_cons, total, total]
    obtain ⟨fewer, hm, hlt⟩ := h
    rcases List.mem_cons.mp hm with rfl | hm
    · exact Nat.add_lt_add_of_lt_of_le hlt (total_le hrest)
    · exact Nat.add_lt_add_of_le_of_lt hentry (ih hrest ⟨fewer, hm, hlt⟩)

end Bag

namespace Rules

open Symbolic.Expr

variable {op : SemigroupOp} {terms : Bag} {value : Number} {e e' : Expr} {width : Nat}

theorem total_repeated_lt (op : SemigroupOp) (hb : Bag.Canonical terms)
    (h : ∃ entry ∈ terms, 1 < entry.2 ∧ entry.1.isConstant = false) :
    Bag.total (Bag.ofEntries (terms.map fun entry => if entry.2 = 1 || entry.1.isConstant then entry
      else (grouped op entry.1 entry.2, 1))) < Bag.total terms := by
  rw [Bag.total_ofEntries]
  refine Bag.total_map_lt (fun entry hm => ?_) ?_
  · split
    · exact Nat.le_refl _
    · exact hb.2 entry hm
  · obtain ⟨entry, hm, hn, hc⟩ := h
    have hne : ¬ entry.2 = 1 := by omega
    exact ⟨entry, hm, by simpa [hne, hc] using hn⟩

/-- Folding leaves one constant at most, and one that is not the identity. -/
theorem constants_folded (op : SemigroupOp) (value : Number) (terms : Bag) :
    Bag.total (constantEntries (if value = op.identity then
        terms.filter fun entry => !entry.1.isConstant
      else Bag.insert (.constant value) (terms.filter fun entry => !entry.1.isConstant))) =
    if value = op.identity then 0 else 1 := by
  have hrest : (Bag.elements (terms.filter fun entry => !entry.1.isConstant)).filter
      isConstant = [] := by
    rw [Bag.elements_filter_keys fun e => !e.isConstant]
    simp
  rw [← Bag.length_elements, constantEntries, Bag.elements_filter_keys isConstant]
  split
  · rw [hrest]
    rfl
  · rw [((Bag.elements_insert _ _).filter isConstant).length_eq,
      List.filter_cons_of_pos (isConstant_iff.mpr ⟨value, rfl⟩), hrest]
    rfl

/-- The constants of a node that is folded are more than one, or are the identity. -/
theorem folded_ne (hb : Bag.Canonical terms) (hne : constantEntries terms ≠ [])
    (hone : ∀ only count, constantEntries terms = [(only, count)] →
      1 < count ∨ only = .constant op.identity)
    (h : accumulateAll op op.identity terms = .ok value) :
    (if value = op.identity then terms.filter fun entry => !entry.1.isConstant
      else Bag.insert (.constant value) (terms.filter fun entry => !entry.1.isConstant)) ≠
        terms := by
  intro hsame
  have hfolded := constants_folded op value terms
  rw [hsame] at hfolded
  by_cases hv : value = op.identity
  · rw [if_pos hv] at hfolded
    obtain ⟨entry, hm⟩ := List.exists_mem_of_ne_nil _ hne
    have hconstant := (List.mem_filter.mp hm).2
    have hpos : 0 < Bag.total (constantEntries terms) :=
      total_pos hb ⟨entry, (List.mem_filter.mp hm).1, hconstant⟩
    omega
  · rw [if_neg hv] at hfolded
    have htwo := two_le_total_of_ne_identity hb hne hone h hv
    omega

theorem foldNary_progress {ctx : Context} (hw : e.WellFormed) (ha : foldNary.applies ctx e = true) :
    foldNary.rewrite ctx e ≠ .ok e := by
  intro hr
  cases e with
  | nary op terms =>
    simp only [foldNary] at ha hr
    cases hv : accumulateAll op op.identity terms with
    | error cause => simp [hv] at hr
    | ok value =>
      simp only [hv, Except.ok.injEq, Expr.nary.injEq, true_and] at hr
      refine folded_ne hw.canonical ?_ ?_ hv hr
      · intro hnil
        simp [hnil] at ha
      · intro only count hone
        simpa [hone] using ha
  | constant | symbol | unary | binary | conditional | call => cases ha

/-- Structure that is dissolved leaves a lighter node, what is grouped leaves fewer children, and
all else leaves a node of another kind or a part of the node. -/
theorem Rewrites.ne (h : Rewrites width e e') (hw : e.WellFormed) : e' ≠ e := by
  cases h with
  | flatten h =>
    intro hsame
    have hlt := weight_flattened_lt hw.canonical h
    rw [(Expr.nary.inj hsame).2] at hlt
    exact Nat.lt_irrefl _ hlt
  | idempotent hop h =>
    intro hsame
    have hlt := weightArgs_keys_lt hw.canonical h
    rw [← weightTerms_ofList, (Expr.nary.inj hsame).2] at hlt
    exact Nat.lt_irrefl _ hlt
  | involution h =>
    intro hsame
    have hlt := weightArgs_odd_lt hw.canonical h
    rw [← weightTerms_ofList, (Expr.nary.inj hsame).2] at hlt
    exact Nat.lt_irrefl _ hlt
  | foldNary hne hone hab h =>
    exact fun hsame => folded_ne hw.canonical hne hone h (Expr.nary.inj hsame).2
  | @repetition op terms hop h =>
    intro hsame
    have hlt := total_repeated_lt op hw.canonical h
    rw [(Expr.nary.inj hsame).2] at hlt
    exact Nat.lt_irrefl _ hlt
  | distribute hi hf =>
    obtain ⟨bag, hbag, _, hlt⟩ := exists_factored_eq hw hf
    rw [hbag]
    intro hsame
    rw [(Expr.nary.inj hsame).2] at hlt
    exact Nat.lt_irrefl _ hlt
  | @single op =>
    intro hsame
    have hlt : e'.size < (Expr.nary op [(e', 1)]).size := size_lt_of_mem_children List.mem_cons_self
    rw [← hsame] at hlt
    exact Nat.lt_irrefl _ hlt
  | @constantCondition test whenTrue whenFalse =>
    intro hsame
    have hbranch : (if test.isTruthy then whenTrue else whenFalse) ∈
        (Expr.conditional (.constant test) whenTrue whenFalse).children := by
      split <;> simp [children, ordered]
    have hlt := size_lt_of_mem_children hbranch
    rw [hsame] at hlt
    exact Nat.lt_irrefl _ hlt
  | @negatedCompare op lhs rhs e h =>
    intro hsame
    cases op <;> cases h <;> cases hsame
  | subtractRight hop h =>
    intro hsame
    cases (Expr.binary.inj hsame).2.2
  | subtractLeft hop h =>
    intro hsame
    cases (Expr.binary.inj hsame).2.1
  | foldUnary | foldBinary | shortCircuit | empty | selfCompare | equalsZero | differsFromZero =>
    intro hsame
    cases hsame

theorem rewrite_ne_self {rule : Rule} {ctx : Context} {op : Operator} (hm : rule ∈ all)
    (hw : e.WellFormed) (ho : e.op? = some op) (hc : rule.trigger.covers op = true)
    (ha : rule.applies ctx e = true) : rule.rewrite ctx e ≠ .ok e := by
  rw [all_eq_early_append_late, List.mem_append] at hm
  have changes (h : Described rule) : rule.rewrite ctx e ≠ .ok e :=
    fun hr => (h ctx op e e ho hc ha hr).ne hw rfl
  rcases hm with hm | hm
  · exact changes (described_of_mem_early hm)
  · rcases described_of_mem_late hm with rfl | h
    · exact foldNary_progress hw ha
    · exact changes h

end Rules

namespace Engine

open Rules

variable {engine : Engine} {ctx : Context} {e : Expr}

/-- Where every rule that applies changes the node, the first that applies decides. -/
theorem firstRewrite_eq_of_changes {rules : List Rule}
    (h : ∀ rule ∈ rules, rule.applies ctx e = true → rule.rewrite ctx e ≠ .ok e) :
    firstRewrite ctx e rules = match rules.find? fun rule => rule.applies ctx e with
      | none => .ok none
      | some rule => (rule.rewrite ctx e).map fun next => some ⟨rule.name, e, next⟩ := by
  induction rules with
  | nil => rfl
  | cons rule rest ih =>
    obtain ⟨hrule, hrest⟩ := List.forall_mem_cons.mp h
    rw [firstRewrite, List.find?_cons]
    split
    · next ha =>
      simp only [ha]
      cases hr : rule.rewrite ctx e with
      | error err => rfl
      | ok next =>
        have hne : next ≠ e := fun hsame => hrule ha (hsame ▸ hr)
        simp only [hne, if_false]
        rfl
    · next ha =>
      simp only [ha]
      exact ih hrest

/-- The engine takes the first default rule that applies: its result, or its failure. -/
theorem rewrite?_eq_find? (hd : engine.registry = .default) (hw : e.WellFormed) {op : Operator}
    (ho : e.op? = some op) (parent : Option Operator) :
    engine.rewrite? parent e =
      match (engine.registry.candidates op).find? fun rule =>
        rule.applies ⟨parent, engine.config⟩ e with
      | none => .ok none
      | some rule => (rule.rewrite ⟨parent, engine.config⟩ e).map fun next =>
        some ⟨rule.name, e, next⟩ := by
  rw [rewrite?, ho]
  refine firstRewrite_eq_of_changes fun rule hm ha => ?_
  rw [hd, Registry.candidates_default, List.mem_filter] at hm
  exact rewrite_ne_self hm.1 hw ho hm.2 ha

/-- No default rule that covers a node and applies to it gives the node back, so that none is passed
over. -/
theorem first_match_decides (hd : engine.registry = .default) (hw : e.WellFormed) {op : Operator}
    (ho : e.op? = some op) (parent : Option Operator) :
    (∀ rule ∈ Rules.all, rule.trigger.covers op = true → ∀ ctx : Context,
      rule.applies ctx e = true → rule.rewrite ctx e ≠ .ok e) ∧
    engine.rewrite? parent e =
      match (engine.registry.candidates op).find? fun rule =>
        rule.applies ⟨parent, engine.config⟩ e with
      | none => .ok none
      | some rule => (rule.rewrite ⟨parent, engine.config⟩ e).map fun next =>
        some ⟨rule.name, e, next⟩ :=
  ⟨fun _ hm hc _ ha => rewrite_ne_self hm hw ho hc ha, rewrite?_eq_find? hd hw ho parent⟩

/-- The first rule that applies to `x + (x + x)` gives `x + x + x`. -/
theorem first_match_decides_of_nested_sum :
    let e := Expr.nary .add [(.symbol "x", 1), (.nary .add [(.symbol "x", 2)], 1)]
    let engine : Engine := ⟨.default, {}, true⟩
    e.WellFormed ∧ e.op? = some (.semigroup .add) ∧
      (∀ rule ∈ Rules.all, rule.trigger.covers (.semigroup .add) = true → ∀ ctx : Context,
        rule.applies ctx e = true → rule.rewrite ctx e ≠ .ok e) ∧
      engine.rewrite? none e = .ok (some ⟨"flatten", e, .nary .add [(.symbol "x", 3)]⟩) := by
  have hdecided := first_match_decides (rfl : Engine.registry ⟨.default, {}, true⟩ = .default)
    (by decide : (Expr.nary .add [(.symbol "x", 1), (.nary .add [(.symbol "x", 2)], 1)]).WellFormed)
    rfl none
  exact ⟨by decide, rfl, hdecided.1, hdecided.2⟩

end Engine
end Symbolic
