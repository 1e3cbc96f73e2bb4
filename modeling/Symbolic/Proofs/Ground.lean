import Symbolic.Proofs.ValuePreserved

/-! Expressions without symbols and calls always fold to a constant. -/
namespace Symbolic

namespace Expr

/-- Neither a symbol nor a call. -/
def isConcrete : Expr → Bool
  | .symbol _ | .call .. => false
  | .constant _ | .nary .. | .unary .. | .binary .. | .conditional .. => true

/-- There are no symbols and no calls in the expression. -/
def Ground (e : Expr) : Prop := e.Everywhere fun x => x.isConcrete = true

instance (e : Expr) : Decidable e.Ground :=
  inferInstanceAs (Decidable (e.Everywhere fun x => x.isConcrete = true))

variable {e : Expr} {op : SemigroupOp} {terms : Bag}

theorem ground_iff : e.Ground ↔ e.isConcrete = true ∧ ∀ c ∈ e.children, c.Ground := everywhere_iff

theorem ground_constant (value : Number) : (constant value).Ground := ground_iff.mpr ⟨rfl, nofun⟩

theorem ground_of_isConstant (h : e.isConstant = true) : e.Ground := by
  obtain ⟨value, rfl⟩ := isConstant_iff.mp h
  exact ground_constant value

theorem ground_nary_iff : (nary op terms).Ground ↔ ∀ c ∈ Bag.keys terms, c.Ground := by
  rw [ground_iff]
  exact and_iff_right rfl

theorem ground_unary_iff {op : UnaryOp} : (unary op e).Ground ↔ e.Ground := by
  rw [ground_iff]
  simp [isConcrete, children, ordered]

theorem ground_binary_iff {op : BinaryOp} {lhs rhs : Expr} :
    (binary op lhs rhs).Ground ↔ lhs.Ground ∧ rhs.Ground := by
  rw [ground_iff]
  simp [isConcrete, children, ordered]

theorem isConcrete_withChildren (e : Expr) (cs : List Expr) :
    (e.withChildren cs).isConcrete = e.isConcrete := by
  unfold withChildren
  split <;> rfl

theorem ground_rebuilt {f : Expr → Expr} (h : e.Ground) (hf : ∀ c ∈ e.children, (f c).Ground) :
    (e.rebuilt f).Ground := by
  refine ground_iff.mpr ⟨?_, ?_⟩
  · rw [rebuilt]
    split
    · exact (ground_iff.mp h).1
    · rw [isConcrete_withChildren]
      exact (ground_iff.mp h).1
  · intro c hc
    obtain ⟨original, ho, rfl⟩ := mem_children_rebuilt hc
    exact hf original ho

theorem compatible_ground : Compatible fun e e' => e.Ground → e'.Ground where
  refl _ h := h
  trans h₁ h₂ h := h₂ (h₁ h)
  rebuilt hc h := ground_rebuilt h fun c hm => hc c hm ((ground_iff.mp h).2 c hm)

end Expr

namespace Rules

open Symbolic.Expr

variable {e e' : Expr} {op inner : SemigroupOp} {terms : Bag} {width : Nat}

theorem negatedTerm?_isConstant {term flipped : Expr} (hc : term.isConstant = true)
    (h : negatedTerm? term = some flipped) : flipped.isConstant = true := by
  rcases negatedTerm?_eq_some h with ⟨_, _, rfl, rfl⟩ | ⟨_, _, _, _, rfl, _⟩
  · rfl
  · cases hc

/-- Constants are no factors. -/
theorem commonFactor?_eq_none (hc : ∀ x ∈ Bag.keys terms, x.isConstant = true) :
    commonFactor? inner terms = none := by
  cases hf : commonFactor? inner terms with
  | none => rfl
  | some factor =>
    obtain ⟨term, hm, hfactor⟩ := exists_mem_factors hf
    obtain ⟨value, rfl⟩ := isConstant_iff.mp (hc term hm)
    cases hfactor

theorem isConstant_of_mem_summands {sum : Expr} (hc : sum.isConstant = true) :
    ∀ x ∈ Bag.keys (summands sum), x.isConstant = true := by
  obtain ⟨value, rfl⟩ := isConstant_iff.mp hc
  intro x hx
  rw [List.mem_singleton.mp hx]
  exact hc

theorem isConstant_of_againstZero {operand lhs rhs : Expr} (hz : AgainstZero operand lhs rhs)
    (hc : ∀ x ∈ (Expr.binary .eq lhs rhs).children, x.isConstant = true) :
    operand.isConstant = true := by
  simp only [children, ordered, List.forall_mem_cons] at hc
  rcases hz with ⟨rfl, _⟩ | ⟨_, rfl⟩
  · exact hc.1
  · exact hc.2.1

theorem ground_of_subset {bag : Bag} (hc : ∀ x ∈ Bag.keys terms, x.isConstant = true)
    (hsub : Bag.keys bag ⊆ Bag.keys terms) : (Expr.nary op bag).Ground :=
  ground_nary_iff.mpr fun x hx => ground_of_isConstant (hc x (hsub hx))

theorem ground_negativeTerms (hc : ∀ x ∈ Bag.keys terms, x.isConstant = true) :
    (Expr.nary op (negativeTerms terms)).Ground := by
  refine ground_nary_iff.mpr fun x hx => ground_of_isConstant ?_
  obtain ⟨entry, hm, rfl⟩ := List.mem_map.mp (Bag.keys_ofEntries_subset _ hx)
  obtain ⟨⟨term, count⟩, ht, hf⟩ := List.mem_filterMap.mp hm
  obtain ⟨flipped, hflipped, rfl⟩ := Option.map_eq_some_iff.mp hf
  exact negatedTerm?_isConstant (hc term (List.mem_map_of_mem ht)) hflipped

/-- Over constants a rewrite brings in no symbols and no calls. -/
theorem Rewrites.ground (h : Rewrites width e e') (hc : ∀ c ∈ e.children, c.isConstant = true) :
    e'.Ground := by
  cases h with
  | flatten hnested =>
    obtain ⟨entry, hm, hn⟩ := hnested
    obtain ⟨inner, hinner⟩ := isNary_iff.mp hn
    have hconstant : entry.1.isConstant = true := hc entry.1 (List.mem_map_of_mem hm)
    rw [hinner] at hconstant
    cases hconstant
  | idempotent => exact ground_of_subset hc fun x hx => Bag.mem_keys_ofList.mp hx
  | involution =>
    refine ground_of_subset hc fun x hx => ?_
    exact Bag.keys_filter_subset _ _ (Bag.mem_keys_ofList.mp hx)
  | foldUnary | foldBinary | shortCircuit | empty | selfCompare => exact ground_constant _
  | foldNary =>
    refine ground_nary_iff.mpr fun x hx => ground_of_isConstant ?_
    split at hx
    · exact hc x (Bag.keys_filter_subset _ _ hx)
    · rcases Bag.mem_keys_of_mem_keys_insert hx with rfl | hx
      · rfl
      · exact hc x (Bag.keys_filter_subset _ _ hx)
  | single => exact ground_of_isConstant (hc e' List.mem_cons_self)
  | @constantCondition test whenTrue whenFalse =>
    simp only [children, ordered, List.forall_mem_cons] at hc
    split
    · exact ground_of_isConstant hc.2.1
    · exact ground_of_isConstant hc.2.2.1
  | negatedCompare =>
    have hcompare := hc _ List.mem_cons_self
    cases hcompare
  | subtractRight =>
    have hterms := isConstant_of_mem_summands (hc _ List.mem_cons_self)
    exact ground_binary_iff.mpr
      ⟨ground_of_subset hterms (Bag.keys_filter_subset _ _), ground_negativeTerms hterms⟩
  | subtractLeft =>
    have hterms := isConstant_of_mem_summands (hc _ (List.mem_cons_of_mem _ List.mem_cons_self))
    exact ground_binary_iff.mpr
      ⟨ground_negativeTerms hterms, ground_of_subset hterms (Bag.keys_filter_subset _ _)⟩
  | equalsZero hz =>
    exact ground_unary_iff.mpr (ground_of_isConstant (isConstant_of_againstZero hz hc))
  | differsFromZero hz =>
    have hoperand := ground_of_isConstant (isConstant_of_againstZero hz hc)
    exact ground_unary_iff.mpr (ground_unary_iff.mpr hoperand)
  | repetition _ hrepeated =>
    obtain ⟨entry, hm, _, hne⟩ := hrepeated
    have hconstant : entry.1.isConstant = true := hc entry.1 (List.mem_map_of_mem hm)
    rw [hne] at hconstant
    cases hconstant
  | distribute _ hf =>
    rw [commonFactor?_eq_none hc] at hf
    cases hf

end Rules

namespace Engine

open Rules Symbolic.Expr

variable {engine : Engine} {levels steps : Nat} {parent : Option Operator} {e n r : Expr}

/-- No rule leaves an operation on constants as it is. -/
theorem NormalForm.isConstant (h : engine.NormalForm parent e) (hd : engine.registry = .default)
    (hw : e.WellFormed) (hg : e.Ground) : e.isConstant = true := by
  induction e using Expr.induction generalizing parent with
  | h e ih =>
    obtain ⟨hconcrete, hground⟩ := ground_iff.mp hg
    obtain ⟨_, hnormal⟩ := normalForm_iff.mp h
    have hc : ∀ c ∈ e.children, c.isConstant = true := by
      intro c hm
      exact ih c hm (hnormal c hm) (hw.of_mem_children hm) (hground c hm)
    have hrest := h.atRest hd hw
    cases e with
    | constant value => rfl
    | symbol | call => cases hconcrete
    | nary op terms =>
      obtain ⟨x, hx, hne⟩ := hrest.exists_nonconstant
      rw [hc x hx] at hne
      cases hne
    | unary op arg =>
      have hne := hrest.unary
      rw [hc arg List.mem_cons_self] at hne
      cases hne
    | binary op lhs rhs =>
      simp only [children, ordered, List.forall_mem_cons] at hc
      rcases hrest.binary with hne | hne
      · rw [hc.1] at hne
        cases hne
      · rw [hc.2.1] at hne
        cases hne
    | conditional test whenTrue whenFalse =>
      have hne := hrest.conditional
      rw [hc test List.mem_cons_self] at hne
      cases hne

/-- Over normal forms a rewrite brings in no symbols and no calls where there are none. -/
theorem ground_of_rewrites {width : Nat} (h : Rewrites width e n) (hd : engine.registry = .default)
    (hw : e.WellFormed) (hc : ∀ c ∈ e.children, engine.NormalForm e.op? c) (hg : e.Ground) :
    n.Ground := by
  refine h.ground fun c hm => ?_
  exact (hc c hm).isConstant hd (hw.of_mem_children hm) ((ground_iff.mp hg).2 c hm)

theorem Normalizes.ground (h : engine.Normalizes levels parent e n steps)
    (hd : engine.registry = .default) (hw : e.WellFormed) (hg : e.Ground) : n.Ground :=
  h.related_of_default hd hw compatible_ground
    (fun _ _ _ hw hc hr => ground_of_rewrites (rewrites_of_rewrite? hd hr) hd hw hc) hg

/-- An expression without symbols and calls that has a normal form has a constant one. -/
theorem Normalizes.exists_constant (h : engine.Normalizes levels parent e n steps)
    (hd : engine.registry = .default) (hw : e.WellFormed) (hg : e.Ground) :
    ∃ value, n = .constant value :=
  isConstant_iff.mp (h.normalForm.isConstant hd (h.wellFormed hd hw) (h.ground hd hw hg))

/-- Whatever an expression without symbols and calls is simplified to is a constant, and without
`&&` and `||` it is the integer that the expression stands for, if it stands for one. -/
theorem constant_of_simplify_ground {config : Config} (hw : e.WellFormed) (hg : e.Ground)
    (h : simplify e config = .ok r) :
    (∃ value, r = .constant value) ∧
      (e.Arithmetic → ∀ env v, e.value? config.wordBits env = some v → r = .int v) := by
  obtain ⟨_, _, hnorm⟩ := normalizes_of_simplify h
  obtain ⟨value, rfl⟩ := hnorm.exists_constant rfl hw hg
  refine ⟨⟨value, rfl⟩, fun ha env v hv => ?_⟩
  have hkept := (hnorm.keeps rfl (legal_isExact_iff.mpr ⟨hw, ha⟩)).1 v hv
  cases value with
  | int w =>
    cases hkept
    rfl
  | float x => cases hkept

/-- `5 < 7 ? 2 + 2 + 2 : 1.0` is 6: of the branches only the one that is taken has to be an
integer. -/
theorem constant_of_simplify_ground_conditional :
    let e := Expr.conditional (.cmpLt (.int 5) (.int 7)) (.nary .add [(.int 2, 3)])
      (.constant (.float (.ofNat 1)))
    e.WellFormed ∧ e.Ground ∧ e.Arithmetic ∧ e.value? 32 (fun _ => 0) = some 6 ∧
      ∃ r, simplify e {} = .ok r ∧ (∃ value, r = .constant value) ∧ r = .int 6 := by
  have hrun : ∃ r, simplify (.conditional (.cmpLt (.int 5) (.int 7)) (.nary .add [(.int 2, 3)])
      (.constant (.float (.ofNat 1)))) {} = .ok r := ⟨_, rfl⟩
  obtain ⟨r, h⟩ := hrun
  obtain ⟨hconstant, hvalue⟩ := constant_of_simplify_ground (by decide) (by decide) h
  exact ⟨by decide, by decide, by decide, rfl, r, h, hconstant,
    hvalue (by decide) (fun _ => 0) 6 rfl⟩

end Engine
end Symbolic
