import Symbolic.Proofs.Heavy
import Symbolic.Proofs.Raises
import Symbolic.Proofs.Ranking

/-! The default rules terminate: the weight of an expression bounds the rewrites of a run. -/
namespace Symbolic

namespace Expr

variable {e : Expr} {f : Expr → Expr} {cost : Expr → Nat}

theorem weightTerms_images_add {terms : Bag} (hb : Bag.Canonical terms)
    (h : ∀ c ∈ Bag.keys terms, (f c).weight + cost c ≤ c.weight) :
    weightTerms (terms.map fun entry => (f entry.1, entry.2)) +
      ((Bag.keys terms).map cost).sum ≤ weightTerms terms := by
  induction terms with
  | nil => exact Nat.le_refl 0
  | cons entry rest ih =>
    have hrest := ih hb.tail fun c hc => h c (List.mem_cons_of_mem _ hc)
    have hentry := Nat.mul_le_mul_left entry.2 (h entry.1 List.mem_cons_self)
    have hcost := Nat.le_mul_of_pos_left (cost entry.1) (hb.2 entry List.mem_cons_self)
    simp only [Nat.mul_add] at hentry
    simp only [Bag.keys] at hrest
    simp only [Bag.keys, List.map_cons, List.sum_cons, weightTerms]
    omega

theorem weightArgs_images_add {args : List Expr}
    (h : ∀ c ∈ args, (f c).weight + cost c ≤ c.weight) :
    weightArgs (args.map f) + (args.map cost).sum ≤ weightArgs args := by
  induction args with
  | nil => exact Nat.le_refl 0
  | cons e rest ih =>
    have hrest := ih fun c hc => h c (List.mem_cons_of_mem _ hc)
    have he := h e List.mem_cons_self
    simp only [List.map_cons, List.sum_cons, weightArgs]
    omega

/-- A node is lighter by what its children lose, since each copy of a child loses it. -/
theorem weight_withChildren_add (hw : e.WellFormed)
    (h : ∀ c ∈ e.children, (f c).weight + cost c ≤ c.weight) :
    (e.withChildren (e.children.map f)).weight + (e.children.map cost).sum ≤ e.weight := by
  cases e with
  | constant | symbol => exact Nat.le_refl _
  | nary op terms =>
    have hterms := weightTerms_images_add hw.canonical h
    simp only [withChildren_nary, weight_nary, weightTerms_ofEntries, Nat.add_assoc]
    exact Nat.add_le_add_left hterms _
  | unary op arg =>
    have harg := h arg List.mem_cons_self
    simp only [children, ordered, List.map_cons, List.map_nil, List.sum_cons, List.sum_nil,
      withChildren, weight_unary]
    omega
  | binary op lhs rhs =>
    have hl := h lhs List.mem_cons_self
    have hr := h rhs (List.mem_cons_of_mem _ List.mem_cons_self)
    simp only [children, ordered, List.map_cons, List.map_nil, List.sum_cons, List.sum_nil,
      withChildren, weight_binary]
    omega
  | conditional test whenTrue whenFalse =>
    have ht := h test List.mem_cons_self
    have htrue := h whenTrue (List.mem_cons_of_mem _ List.mem_cons_self)
    have hfalse := h whenFalse
      (List.mem_cons_of_mem _ (List.mem_cons_of_mem _ List.mem_cons_self))
    simp only [children, ordered, List.map_cons, List.map_nil, List.sum_cons, List.sum_nil,
      withChildren, weight_conditional]
    omega
  | call callee args =>
    have hcallee := h callee List.mem_cons_self
    have hargs := weightArgs_images_add fun c hc => h c (List.mem_cons_of_mem _ hc)
    simp only [children, ordered, List.map_cons, List.sum_cons, withChildren, weight]
    omega

theorem weight_rebuilt_add (hw : e.WellFormed)
    (h : ∀ c ∈ e.children, (f c).weight + cost c ≤ c.weight) :
    (e.rebuilt f).weight + (e.children.map cost).sum ≤ e.weight := by
  simp only [rebuilt]
  split
  · next hsame =>
    have hzero : ∀ x ∈ e.children.map cost, x = 0 := by
      intro x hx
      obtain ⟨c, hc, rfl⟩ := List.mem_map.mp hx
      have himage : f c = id c := List.map_inj_left.mp (hsame.trans (List.map_id _).symm) c hc
      have := h c hc
      rw [himage, id] at this
      omega
    rw [List.sum_eq_zero hzero, Nat.add_zero]
  · exact weight_withChildren_add hw h

theorem sum_weight_children_lt (hw : e.WellFormed) : (e.children.map weight).sum < e.weight := by
  cases e with
  | constant | symbol => exact weight_pos _
  | nary op terms =>
    have hop : 0 < op.weight := by cases op <;> decide
    rw [children, ← weightArgs_eq_sum, weight_nary]
    exact Nat.lt_of_le_of_lt (Rules.weightArgs_keys_le hw.canonical) (Nat.lt_add_of_pos_left hop)
  | unary op arg =>
    simp only [children, ordered, ← weightArgs_eq_sum, weight_unary, weightArgs]
    omega
  | binary op lhs rhs =>
    simp only [children, ordered, ← weightArgs_eq_sum, weight_binary, weightArgs]
    omega
  | conditional test whenTrue whenFalse =>
    simp only [children, ordered, ← weightArgs_eq_sum, weight_conditional, weightArgs]
    omega
  | call callee args =>
    simp only [children, ordered, ← weightArgs_eq_sum, weight, weightArgs]
    omega

end Expr

namespace Engine

open Rules

variable {engine : Engine} {e : Expr}

theorem not_isNonTerminating_of_rewrite? (hd : engine.registry = .default)
    {parent : Option Operator} {err : SimplifyError}
    (h : engine.rewrite? parent e = .error err) : ¬ IsNonTerminating err := by
  rintro ⟨limit, recent, rfl⟩
  cases raises_of_rewrite? hd h

/-- The default rules lower the weight of well-formed expressions. -/
def byWeight (engine : Engine) (hd : engine.registry = .default) : engine.Ranking where
  rank := Expr.weight
  Valid := Expr.WellFormed
  child := Expr.WellFormed.of_mem_children
  rebuilt := Expr.wellFormed_rebuilt
  rank_rebuilt := Expr.weight_rebuilt_add
  rank_children hw := Nat.le_of_lt (Expr.sum_weight_children_lt hw)
  rewritten hw hc hr := by
    have hrewrites := rewrites_of_rewrite? hd hr
    have hheavy := fun c hm => (hc c hm).heavy hd (hw.of_mem_children hm)
    exact ⟨hrewrites.wellFormed hw, hrewrites.weight_lt hw hheavy⟩
  failed := not_isNonTerminating_of_rewrite? hd

theorem Normalizes.wellFormed {levels steps : Nat} {parent : Option Operator} {n : Expr}
    (h : engine.Normalizes levels parent e n steps) (hd : engine.registry = .default)
    (hw : e.WellFormed) : n.WellFormed :=
  ((byWeight engine hd).normalizes h hw).1

/-- With a limit of as many rewrites as the expression weighs, whatever the other limits and the
word width, the default rules never run out of rewrites. -/
theorem exists_limit_of_wellFormed (e : Expr) (hw : e.WellFormed) :
    ∃ bound, ∀ config : Config, bound ≤ config.maxSteps → ∀ limit recent,
      simplifyWith .default config e ≠ .error (.nonTerminating limit recent) := by
  refine ⟨e.weight, fun config hbound limit recent h => ?_⟩
  have hrun : run ⟨.default, config, true⟩ e =
      (.error (.nonTerminating limit recent), (run ⟨.default, config, true⟩ e).2) := Prod.ext h rfl
  exact (byWeight ⟨.default, config, true⟩ rfl).run_lasts hw hbound hrun ⟨limit, recent, rfl⟩

/-- A sum of two different multiples of a product is factored. -/
theorem exists_limit_of_two_products :
    let x := Expr.symbol "x"
    let e := Expr.nary .add [(.nary .mul [(x, 1), (.symbol "y", 1)], 1), (.nary .mul [(x, 2)], 1)]
    e.WellFormed ∧ ∃ bound, ∀ config : Config, bound ≤ config.maxSteps → ∀ limit recent,
      simplifyWith .default config e ≠ .error (.nonTerminating limit recent) := by
  refine ⟨by decide, exists_limit_of_wellFormed _ ?_⟩
  decide

end Engine
end Symbolic
