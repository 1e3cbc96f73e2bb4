import Symbolic.Proofs.NaryValues
import Symbolic.Proofs.Reduced
import Symbolic.Proofs.Strategy

/-! Multiplicities in a run: where a node is flattened, the nested operands occur once each, so that
no product of multiplicities reaches the largest machine word. -/
namespace Symbolic

namespace Rules

variable {op : SemigroupOp} {terms : Bag} {rule rule' : Rule} {n count : Nat}
  {product product' : Nat → Nat → Nat}

/-- A product of machine words that stops at the largest one. -/
def saturatingProduct (n count : Nat) : Nat := min (n * count) maxMultiplicity

/-- The terms of the children that carry the operator itself, each with a product of its
multiplicity and that of its child. -/
def nestedProducts (product : Nat → Nat → Nat) (op : SemigroupOp) (terms : Bag) :
    List (Expr × Nat) :=
  terms.flatMap fun entry =>
    match entry.1 with
    | .nary inner nested =>
      if inner = op then nested.map fun term => (term.1, product term.2 entry.2) else []
    | _ => []

/-- On machine words the products that flattening takes are the saturating ones. -/
theorem scaledCount_eq_saturatingProduct (hn : n ≤ maxMultiplicity) (hc : count ≤ maxMultiplicity) :
    scaledCount n count = saturatingProduct n count := by
  simp only [scaledCount, saturatingProduct]
  split <;> omega

theorem saturatingProduct_one (hc : count ≤ maxMultiplicity) :
    saturatingProduct 1 count = 1 * count := by
  have hone : 1 ≤ maxMultiplicity := by decide
  exact (scaledCount_eq_saturatingProduct hone hc).symm.trans (scaledCount_one count)

theorem nestedTerms_eq_nestedProducts (op : SemigroupOp) (terms : Bag) :
    nestedTerms op terms = nestedProducts scaledCount op terms := by
  induction terms with
  | nil => rfl
  | cons entry rest ih =>
    obtain ⟨child, count⟩ := entry
    rw [nestedProducts, List.flatMap_cons, ← nestedProducts, ← ih]
    cases child with
    | nary inner nested =>
      simp only [nestedTerms]
      split <;> rfl
    | constant | symbol | unary | binary | conditional | call => rfl

theorem nestedProducts_congr
    (h : ∀ inner count, (.nary op inner, count) ∈ terms →
      ∀ term ∈ inner, product term.2 count = product' term.2 count) :
    nestedProducts product op terms = nestedProducts product' op terms := by
  refine List.flatMap_congr fun entry hm => ?_
  obtain ⟨child, count⟩ := entry
  cases child with
  | nary inner nested =>
    by_cases hi : inner = op
    · subst hi
      simp only [if_true]
      exact List.map_congr_left fun term ht => by rw [h nested count hm term ht]
    · simp only [hi, if_false]
  | constant | symbol | unary | binary | conditional | call => rfl

theorem nodup_names : (all.map Rule.name).Nodup := by decide

theorem eq_of_name_eq (hm : rule ∈ all) (hm' : rule' ∈ all) (h : rule.name = rule'.name) :
    rule = rule' :=
  List.inj_on_of_nodup_map nodup_names hm hm' h

end Rules

namespace Engine

open Rules

variable {engine : Engine} {parent : Option Operator} {root e : Expr} {step : Step}

/-- Every node that normalization by the default rules comes to is well formed. -/
theorem Reaches.wellFormed {occurrence : Occurrence} (h : engine.Reaches root occurrence)
    (hd : engine.registry = .default) (hw : root.WellFormed) : occurrence.2.WellFormed := by
  induction h with
  | root => exact hw
  | child _ hc ih => exact ih.of_mem_children hc
  | rebuilt image cost _ hc ih =>
    exact Expr.wellFormed_rebuilt ih fun c hm => (hc c hm).wellFormed hd (ih.of_mem_children hm)
  | rewritten _ _ hr ih => exact (rewrites_of_rewrite? hd hr).wellFormed ih

/-- The rewrites of a rule in a run are those that it makes of nodes it applies to. -/
theorem rewrite_of_rule {rule : Rule} (hd : engine.registry = .default)
    (hr : engine.rewrite? parent e = .ok (some step)) (hm : rule ∈ all)
    (hname : step.rule = rule.name) :
    rule.applies ⟨parent, engine.config⟩ step.before = true ∧
      rule.rewrite ⟨parent, engine.config⟩ step.before = .ok step.after := by
  obtain ⟨_, op, _, earlier, found, later, hsplit, _, ha, hrewrite, hfound, _⟩ :=
    firstMatch_of_rewrite? hr
  have hcandidate : found ∈ engine.registry.candidates op := by simp [hsplit]
  rw [hd, Registry.candidates_default, List.mem_filter] at hcandidate
  obtain rfl := eq_of_name_eq hm hcandidate.1 (hname.symm.trans hfound)
  exact ⟨ha, hrewrite⟩

/-- The nested operands that flattening merges occur once each: their node is a normal form, and in
one no operand is left twice. -/
theorem Innermost.count_nested {op : SemigroupOp} {terms inner : Bag} {count : Nat}
    (h : engine.Innermost root step) (hd : engine.registry = .default) (hw : root.WellFormed)
    (hb : step.before = .nary op terms) (hm : (.nary op inner, count) ∈ terms) :
    ∀ term ∈ inner, term.2 = 1 := by
  intro term ht
  obtain ⟨parent, hreached, hchildren, _⟩ := h
  have hwell : (Expr.nary op terms).WellFormed := hb ▸ hreached.wellFormed hd hw
  have hchild : Expr.nary op inner ∈ Bag.keys terms := List.mem_map_of_mem hm
  rw [hb] at hchildren
  exact ((hchildren _ hchild).atRest hd (hwell.of_mem_children hchild)).count_eq_one ht

theorem Innermost.flattened (h : engine.Innermost root step) (hd : engine.registry = .default)
    (hname : step.rule = flatten.name) :
    ∃ op terms, step.before = .nary op terms ∧ step.after = .nary op
      (Bag.merge (terms.filter fun entry => !isNary op entry.1) (nestedTerms op terms)) := by
  obtain ⟨parent, _, _, hr⟩ := h
  obtain ⟨ha, hrewrite⟩ := rewrite_of_rule hd hr (by simp [Rules.all, semigroupFamily]) hname
  cases hb : step.before with
  | nary op terms =>
    simp only [hb, flatten, Bag.split, List.partition_eq_filter_filter, Except.ok.injEq] at hrewrite
    exact ⟨op, terms, rfl, hrewrite.symm⟩
  | constant | symbol | unary | binary | conditional | call =>
    rw [hb] at ha
    cases ha

/-- Whether a run succeeds or fails, where it flattens a node every nested operand that is merged
occurs once in its operation. The saturating products of its multiplicity and that of the operation
are then the products themselves, however often anything occurs in the expression that is
simplified. -/
theorem flattened_exactly {e : Expr} (config : Config) (hw : e.WellFormed) :
    ∀ step ∈ (run ⟨.default, config, true⟩ e).2.trace, step.rule = flatten.name →
      ∃ op terms, step.before = .nary op terms ∧
        (∀ inner count, (.nary op inner, count) ∈ terms → ∀ term ∈ inner,
          term.2 = 1 ∧ scaledCount term.2 count = term.2 * count ∧
            (count ≤ maxMultiplicity → saturatingProduct term.2 count = term.2 * count)) ∧
        step.after = .nary op (Bag.merge (terms.filter fun entry => !isNary op entry.1)
          (nestedProducts (fun n count => n * count) op terms)) := by
  intro step hm hname
  let engine : Engine := ⟨.default, config, true⟩
  obtain ⟨new, hnew, htrace, _⟩ := (adds_run engine e).exists_new
  have hinnermost : engine.Innermost e step := by
    have hempty : engine.start.trace = [] := rfl
    rw [htrace, hempty, List.append_nil] at hm
    exact hnew step hm
  obtain ⟨op, terms, hbefore, hafter⟩ := hinnermost.flattened rfl hname
  have hexact : ∀ inner count, (.nary op inner, count) ∈ terms → ∀ term ∈ inner,
      term.2 = 1 ∧ scaledCount term.2 count = term.2 * count ∧
        (count ≤ maxMultiplicity → saturatingProduct term.2 count = term.2 * count) := by
    intro inner count hchild term ht
    have hone := hinnermost.count_nested rfl hw hbefore hchild term ht
    rw [hone]
    exact ⟨rfl, scaledCount_one count, saturatingProduct_one⟩
  refine ⟨op, terms, hbefore, hexact, ?_⟩
  rw [hafter, nestedTerms_eq_nestedProducts]
  rw [nestedProducts_congr fun inner count hchild term ht =>
    (hexact inner count hchild term ht).2.1]

/-- In a sum of `x` and `2 ^ 64 - 1` sums of as many copies of `y` and one of `z`, the inner sum has
become `z + y * (2 ^ 64 - 1)` before it is merged. -/
theorem flattened_exactly_of_large_multiplicities :
    let product := Expr.nary .mul [(.int maxMultiplicity, 1), (.symbol "y", 1)]
    let inner := Expr.nary .add [(.symbol "y", maxMultiplicity), (.symbol "z", 1)]
    let e := Expr.nary .add [(.symbol "x", 1), (inner, maxMultiplicity)]
    let before := Expr.nary .add
      [(.symbol "x", 1), (.nary .add [(.symbol "z", 1), (product, 1)], maxMultiplicity)]
    let after := Expr.nary .add
      [(.symbol "x", 1), (.symbol "z", maxMultiplicity), (product, maxMultiplicity)]
    e.WellFormed ∧ ⟨flatten.name, before, after⟩ ∈ (run ⟨.default, {}, true⟩ e).2.trace ∧
      ∃ op terms, before = .nary op terms ∧
        (∀ inner count, (.nary op inner, count) ∈ terms → ∀ term ∈ inner,
          term.2 = 1 ∧ scaledCount term.2 count = term.2 * count ∧
            (count ≤ maxMultiplicity → saturatingProduct term.2 count = term.2 * count)) ∧
        after = .nary op (Bag.merge (terms.filter fun entry => !isNary op entry.1)
          (nestedProducts (fun n count => n * count) op terms)) := by
  intro product inner e before after
  have hw : e.WellFormed := by decide
  have hstep : (run ⟨.default, {}, true⟩ e).2.trace[3]? = some ⟨flatten.name, before, after⟩ := by
    decide +kernel
  have hm := List.mem_of_getElem? hstep
  exact ⟨hw, hm, flattened_exactly {} hw _ hm rfl⟩

/-- By itself flattening would stop at the largest multiplicity. -/
example :
    flatten.rewrite ⟨none, {}⟩ (.nary .add [(.nary .add [(.symbol "y", maxMultiplicity)], 2)]) =
      .ok (.nary .add [(.symbol "y", maxMultiplicity)]) := rfl

end Engine
end Symbolic
