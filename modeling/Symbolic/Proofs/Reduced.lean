import Symbolic.Proofs.Termination
import Symbolic.Reduced

/-! Simplification by the default rules leaves every node reduced: where one of them finds what it
looks for, it changes the node, so that a normal form holds nothing that a rule looks for. -/
namespace Symbolic

namespace Rules

open Symbolic.Expr

variable {op inner : SemigroupOp} {terms : Bag} {e e' factor : Expr}

theorem two_le_count_flatMap {f : Expr → List Expr} {a b x : Expr} {es : List Expr} (ha : a ∈ es)
    (hb : b ∈ es) (hne : a ≠ b) (hxa : x ∈ f a) (hxb : x ∈ f b) : 2 ≤ (es.flatMap f).count x := by
  have among {c : Expr} {es : List Expr} (hc : c ∈ es) (hx : x ∈ f c) :
      1 ≤ (es.flatMap f).count x :=
    List.count_pos_iff.mpr (List.mem_flatMap.mpr ⟨c, hc, hx⟩)
  induction es with
  | nil => cases ha
  | cons c rest ih =>
    simp only [List.flatMap_cons, List.count_append]
    rcases List.mem_cons.mp ha with rfl | harest
    · have hfirst := List.count_pos_iff.mpr hxa
      have hrest := among ((List.mem_cons.mp hb).resolve_left (Ne.symm hne)) hxb
      omega
    · rcases List.mem_cons.mp hb with rfl | hbrest
      · have hfirst := List.count_pos_iff.mpr hxb
        have hrest := among harest hxa
        omega
      · have := ih harest hbrest
        omega

/-- A factor with a count of two or more is never passed over. -/
theorem isSome_mostCommon? {counts : Bag} {entry : Expr × Nat} (hm : entry ∈ counts)
    (hn : 2 ≤ entry.2) : (mostCommon? counts).isSome = true := by
  have hleads := leading_mostCommon? counts
  cases h : mostCommon? counts with
  | some best => rfl
  | none =>
    rw [h] at hleads
    have := hleads entry hm
    omega

theorem isSome_commonFactor? (he : e ∈ Bag.keys terms) (he' : e' ∈ Bag.keys terms) (hne : e ≠ e')
    (hf : factor ∈ factors inner e) (hf' : factor ∈ factors inner e') :
    (commonFactor? inner terms).isSome = true := by
  have hcount := two_le_count_flatMap he he' hne hf hf'
  have hkey : factor ∈ Bag.keys (factorCounts inner terms) :=
    Bag.mem_keys_ofList.mpr (List.mem_flatMap.mpr ⟨e, he, hf⟩)
  obtain ⟨⟨key, n⟩, hm, rfl⟩ := List.mem_map.mp hkey
  have hn := Bag.count_elements (Bag.canonical_ofList _) hm
  rw [(Bag.elements_ofList _).count_eq] at hn
  rw [commonFactor?, Option.isSome_map]
  exact isSome_mostCommon? hm (by dsimp only at hcount ⊢; omega)

/-- The factors that are counted are all factors, but for a term that is a product itself. -/
theorem mem_factors_of_hasFactor (h : e.HasFactor inner factor)
    (hne : factor.op? ≠ some (.semigroup inner)) : factor ∈ factors inner e := by
  obtain ⟨hc, rfl | ⟨terms, rfl, hm⟩⟩ := h
  · cases e with
    | constant value => cases hc
    | nary op terms =>
      have ho : op ≠ inner := by
        rintro rfl
        exact hne rfl
      rw [factors, if_neg ho]
      exact List.mem_singleton.mpr rfl
    | symbol | unary | binary | conditional | call => exact List.mem_singleton.mpr rfl
  · rw [factors, if_pos rfl]
    exact List.mem_filter.mpr ⟨hm, by simp [hc]⟩

theorem isSome_absorbed? {value : Number} (h : op.Absorbs value) :
    (absorbed? op value).isSome = true := by
  cases op with
  | add | bitXor => exact h.elim
  | bitAnd | bitOr =>
    obtain rfl : value = .int _ := h
    rfl
  | mul | or =>
    have h : _ = true := h
    simp [absorbed?, h]
  | and =>
    have h : value.isZero = true := by simpa [SemigroupOp.Absorbs, Number.isTruthy] using h
    simp [absorbed?, h]

theorem isSome_negatedTerm? (h : e.IsNegativeTerm)
    (hone : ∀ terms, e = .nary .mul terms → ∀ entry ∈ terms, entry.2 = 1) :
    (negatedTerm? e).isSome = true := by
  cases e with
  | constant value =>
    have hnegative : value.isNegative = true := h
    simp [negatedTerm?, hnegative]
  | nary op terms =>
    cases op with
    | mul =>
      obtain ⟨value, hnegative, hm⟩ := h
      obtain ⟨⟨child, count⟩, hentry, rfl⟩ := List.mem_map.mp hm
      obtain rfl : count = 1 := hone terms rfl _ hentry
      rw [negatedTerm?, Option.isSome_map, negativeCoefficient?, List.findSome?_isSome_iff]
      exact ⟨_, hentry, by simp [constant?, hnegative]⟩
    | add | bitAnd | bitOr | bitXor | and | or => exact h.elim
  | symbol | unary | binary | conditional | call => exact h.elim

theorem isSome_difference? {op : BinaryOp} {sum lhs rhs : Expr} (hz : AgainstZero sum lhs rhs)
    (hn : negativeTerms (summands sum) ≠ []) :
    (difference? (.binary op lhs rhs)).isSome = true := by
  have hside : (if rhs.isInt 0 then some (lhs, false)
      else if lhs.isInt 0 then some (rhs, true) else none) = some (sum, !rhs.isInt 0) := by
    rcases hz with ⟨rfl, rfl⟩ | ⟨rfl, rfl⟩
    · rfl
    · by_cases hr : rhs = .int 0
      · subst hr
        rfl
      · have hr : rhs.isInt 0 = false := by
          rw [← Bool.not_eq_true, isInt_iff]
          exact hr
        simp [hr, isInt_iff]
  simp [difference?, operands?, hside, hn]

theorem negativeTerms_ne_nil (hb : Bag.Canonical terms) (hm : e ∈ Bag.keys terms)
    (hn : (negatedTerm? e).isSome = true) : negativeTerms terms ≠ [] := by
  obtain ⟨flipped, hf⟩ := Option.isSome_iff_exists.mp hn
  obtain ⟨⟨_, count⟩, hentry, rfl⟩ := List.mem_map.mp hm
  have hpos : 1 ≤ count := hb.2 _ hentry
  rw [negativeTerms_eq]
  intro hnil
  have hmoved : flipped ∈ Bag.elements (terms.filterMap fun entry =>
      (negatedTerm? entry.1).map fun flipped => (flipped, entry.2)) :=
    Bag.mem_elements.mpr ⟨count, List.mem_filterMap.mpr ⟨_, hentry, by simp [hf]⟩, by omega⟩
  rw [← (Bag.elements_ofEntries _).mem_iff, hnil] at hmoved
  cases hmoved

/-- A negative term is among those that a comparison with zero looks at. -/
theorem exists_negative_summand (h : e.HasNegativeTerm) :
    ∃ term ∈ Bag.keys (summands e), term.IsNegativeTerm := by
  rcases h with h | ⟨terms, rfl, term, hm, h⟩
  · refine ⟨e, ?_, h⟩
    cases e with
    | nary op terms =>
      cases op with
      | add => exact h.elim
      | mul | bitAnd | bitOr | bitXor | and | or => exact List.mem_singleton.mpr rfl
    | constant | symbol | unary | binary | conditional | call => exact List.mem_singleton.mpr rfl
  · exact ⟨term, hm, h⟩

end Rules

namespace Engine

open Rules Symbolic.Expr

variable {engine : Engine} {parent : Option Operator}

section

variable {op : SemigroupOp} {terms : Bag} {e : Expr}

theorem AtRest.flat (h : engine.AtRest parent (.nary op terms)) (he : e ∈ Bag.keys terms) :
    e.op? ≠ some (.semigroup op) := by
  intro ho
  obtain ⟨entry, hentry, rfl⟩ := List.mem_map.mp he
  have hm : flatten ∈ Rules.all := by simp [Rules.all, semigroupFamily]
  have hnone := h.applies_eq_false rfl hm rfl
  have hany : flatten.applies ⟨parent, engine.config⟩ (.nary op terms) = true :=
    List.any_eq_true.mpr ⟨entry, hentry, by simp [isNary, ho]⟩
  rw [hany] at hnone
  cases hnone

theorem AtRest.two_le_length (h : engine.AtRest parent (.nary op terms)) : 2 ≤ terms.length := by
  match terms with
  | [] => exact (h.ne_nil rfl).elim
  | [(child, count)] =>
    obtain rfl : count = 1 := h.count_eq_one List.mem_cons_self
    exact (h.ne_single child rfl).elim
  | _ :: _ :: _ => simp

theorem AtRest.constant_unique (h : engine.AtRest parent (.nary op terms)) {v w : Number}
    (hv : .constant v ∈ Bag.keys terms) (hw : .constant w ∈ Bag.keys terms) :
    v = w ∧ v ≠ op.identity := by
  have among {v : Number} (hv : .constant v ∈ Bag.keys terms) :
      ∃ count, (Expr.constant v, count) ∈ Rules.constantEntries terms := by
    obtain ⟨⟨_, count⟩, hm, rfl⟩ := List.mem_map.mp hv
    exact ⟨count, List.mem_filter.mpr ⟨hm, rfl⟩⟩
  obtain ⟨n, hn⟩ := among hv
  obtain ⟨m, hm⟩ := among hw
  rcases h.constantEntries with hnil | ⟨only, count, hone, _, hidentity⟩
  · rw [hnil] at hn
    cases hn
  · rw [hone, List.mem_singleton] at hn hm
    cases hn
    cases hm
    exact ⟨rfl, fun he => hidentity (congrArg Expr.constant he)⟩

theorem AtRest.not_absorbs (h : engine.AtRest parent (.nary op terms)) {v : Number}
    (hv : .constant v ∈ Bag.keys terms) : ¬ op.Absorbs v := by
  intro habsorbs
  obtain ⟨entry, hm, he⟩ := List.mem_map.mp hv
  have hnone := List.findSome?_eq_none_iff.mp (h.settled.absorbing?_eq_none h.default) entry hm
  have hsome := isSome_absorbed? habsorbs
  rw [he, constant?, Option.bind_some] at hnone
  rw [hnone] at hsome
  cases hsome

theorem covers_of_innerOf? {inner : SemigroupOp} (hi : innerOf? op = some inner) :
    distribute.trigger.covers (.semigroup op) = true := by
  cases op with
  | mul | bitXor => cases hi
  | add | bitAnd | bitOr | and | or => rfl

theorem innerOf?_of_dual {inner : SemigroupOp} (hi : op.Dual inner) : innerOf? op = some inner := by
  cases op with
  | mul | bitXor => exact hi.elim
  | add | bitAnd | bitOr | and | or =>
    obtain rfl : inner = _ := hi
    rfl

/-- A factor that two terms share would be pulled out. It cannot be a product itself, since the term
that has it as an operand would be flattened. -/
theorem AtRest.unshared (h : engine.AtRest parent (.nary op terms))
    (hrest : ∀ c ∈ Bag.keys terms, engine.AtRest (some (.semigroup op)) c) {inner : SemigroupOp}
    (hi : op.Dual inner) {e' factor : Expr} (he : e ∈ Bag.keys terms)
    (he' : e' ∈ Bag.keys terms) (hne : e ≠ e') (hf : e.HasFactor inner factor) :
    ¬ e'.HasFactor inner factor := by
  intro hf'
  have hflat : factor.op? ≠ some (.semigroup inner) := by
    obtain ⟨_, rfl | ⟨inside, rfl, hm⟩⟩ := hf
    · obtain ⟨_, rfl | ⟨inside, rfl, hm⟩⟩ := hf'
      · exact (hne rfl).elim
      · exact (hrest _ he').flat hm
    · exact (hrest _ he).flat hm
  have hm : distribute ∈ Rules.all := by simp [Rules.all, factoringFamily]
  have hi := innerOf?_of_dual hi
  have hnone := h.applies_eq_false rfl hm (covers_of_innerOf? hi)
  have hsome := isSome_commonFactor? he he' hne (mem_factors_of_hasFactor hf hflat)
    (mem_factors_of_hasFactor hf' hflat)
  simp only [distribute, hi, Option.bind_some] at hnone
  rw [hsome] at hnone
  cases hnone

theorem AtRest.reducedTerms (h : engine.AtRest parent (.nary op terms))
    (hrest : ∀ c ∈ Bag.keys terms, engine.AtRest (some (.semigroup op)) c) :
    ReducedTerms op terms where
  two_le_length := h.two_le_length
  nodup := h.wellFormed.canonical.nodup_keys
  count_eq_one _ hm := h.count_eq_one hm
  flat _ he := h.flat he
  constant_unique _ _ hv hw := (h.constant_unique hv hw).1
  ne_identity _ hv := (h.constant_unique hv hv).2
  not_absorbs _ hv := h.not_absorbs hv
  unshared _ hi _ he _ he' hne _ hf := h.unshared hrest hi he he' hne hf.1 hf.2

end

theorem AtRest.not_comparison {arg : Expr} (h : engine.AtRest parent (.unary .not arg)) :
    ∀ inner ∈ arg.op?, inner.isComparison = false := by
  intro inner ho
  have hm : negatedCompare ∈ Rules.all := by simp [Rules.all, comparisonFamily]
  have hnone := h.applies_eq_false rfl hm rfl
  simpa [negatedCompare, ordered, Option.mem_def.mp ho] using hnone

section

variable {op : BinaryOp} {lhs rhs : Expr}

theorem covers_of_isComparison (hop : op.isComparison = true) :
    Trigger.covers (.anyOf comparisons) (.binary op) = true := by
  cases op <;> first | rfl | cases hop

theorem AtRest.ne_of_isComparison (h : engine.AtRest parent (.binary op lhs rhs))
    (hop : op.isComparison = true) : lhs ≠ rhs := by
  have hm : selfCompare ∈ Rules.all := by simp [Rules.all, comparisonFamily]
  have hnone := h.applies_eq_false rfl hm (covers_of_isComparison hop)
  simpa [selfCompare, operands?] using hnone

theorem AtRest.ne_zero (h : engine.AtRest parent (.binary op lhs rhs)) (hop : op = .eq ∨ op = .ne) :
    lhs ≠ .int 0 ∧ rhs ≠ .int 0 := by
  have hm : compareZero ∈ Rules.all := by simp [Rules.all, comparisonFamily]
  have hcovers : compareZero.trigger.covers (.binary op) = true := by
    rcases hop with rfl | rfl <;> rfl
  have hnone := h.applies_eq_false rfl hm hcovers
  simp only [compareZero, comparedWithZero?, operands?, Option.bind_some] at hnone
  constructor
  · rintro rfl
    simp only [isInt_iff.mpr rfl, if_true] at hnone
    split at hnone <;> cases hnone
  · rintro rfl
    simp only [isInt_iff.mpr rfl, if_true] at hnone
    cases hnone

/-- What stands against zero is no negative term: that would be moved to the other side. -/
theorem AtRest.negatedTerm?_eq_none (h : engine.AtRest parent (.binary op lhs rhs))
    (hop : op.isComparison = true) {sum : Expr} (hz : AgainstZero sum lhs rhs) {term : Expr}
    (hm : term ∈ Bag.keys (summands sum)) : negatedTerm? term = none := by
  have hrule : subtractCompare ∈ Rules.all := by simp [Rules.all, comparisonFamily]
  have hnone := h.applies_eq_false rfl hrule (covers_of_isComparison hop)
  have hsum : sum.WellFormed := by
    refine h.wellFormed.of_mem_children ?_
    rcases hz with ⟨rfl, rfl⟩ | ⟨rfl, rfl⟩ <;> simp [children, ordered]
  cases hn : negatedTerm? term with
  | none => rfl
  | some flipped =>
    have hne := negativeTerms_ne_nil (canonical_summands hsum).1 hm (by rw [hn]; rfl)
    have hany : subtractCompare.applies ⟨parent, engine.config⟩ (.binary op lhs rhs) = true :=
      isSome_difference? hz hne
    rw [hany] at hnone
    cases hnone

end

theorem NormalForm.summand {sum term : Expr} (h : engine.NormalForm parent sum)
    (hm : term ∈ Bag.keys (summands sum)) : ∃ parent', engine.NormalForm parent' term := by
  cases sum with
  | nary op terms =>
    cases op with
    | add => exact ⟨_, (normalForm_iff.mp h).2 term hm⟩
    | mul | bitAnd | bitOr | bitXor | and | or =>
      rw [List.mem_singleton.mp hm]
      exact ⟨parent, h⟩
  | constant | symbol | unary | binary | conditional | call =>
    rw [List.mem_singleton.mp hm]
    exact ⟨parent, h⟩

theorem NormalForm.not_hasNegativeTerm {op : BinaryOp} {lhs rhs sum : Expr}
    (h : engine.NormalForm parent (.binary op lhs rhs)) (hd : engine.registry = .default)
    (hw : (Expr.binary op lhs rhs).WellFormed) (hop : op.isComparison = true)
    (hz : AgainstZero sum lhs rhs) : ¬ sum.HasNegativeTerm := by
  intro hnegative
  obtain ⟨term, hm, hterm⟩ := exists_negative_summand hnegative
  have hchild : sum ∈ (Expr.binary op lhs rhs).children := by
    rcases hz with ⟨rfl, rfl⟩ | ⟨rfl, rfl⟩ <;> simp [children, ordered]
  obtain ⟨_, hnormal⟩ := ((normalForm_iff.mp h).2 sum hchild).summand hm
  have htermw := (canonical_summands (hw.of_mem_children hchild)).2 term hm
  have hsome := isSome_negatedTerm? hterm (by
    rintro terms rfl entry hentry
    exact (hnormal.atRest hd htermw).count_eq_one hentry)
  rw [(h.atRest hd hw).negatedTerm?_eq_none hop hz hm] at hsome
  cases hsome

theorem NormalForm.reduced {e : Expr} (h : engine.NormalForm parent e)
    (hd : engine.registry = .default) (hw : e.WellFormed) : e.Reduced := by
  have hrest := h.atRest hd hw
  cases e with
  | constant | symbol | call => trivial
  | nary op terms =>
    exact hrest.reducedTerms fun c hm =>
      ((normalForm_iff.mp h).2 c hm).atRest hd (hw.of_mem_children hm)
  | unary op arg =>
    refine ⟨hrest.unary, ?_⟩
    rintro rfl
    exact hrest.not_comparison
  | binary op lhs rhs =>
    exact
      { nonconstant := fun hboth => by
          rcases hrest.binary with hl | hr
          · exact Bool.eq_false_iff.mp hl hboth.1
          · exact Bool.eq_false_iff.mp hr hboth.2
        distinct := hrest.ne_of_isComparison
        nonzero := hrest.ne_zero
        nonnegative := fun hop => by
          have hcompare : op.isComparison = true := by rcases hop with rfl | rfl <;> rfl
          exact ⟨fun hz => h.not_hasNegativeTerm hd hw hcompare (Or.inl ⟨rfl, hz⟩),
            fun hz => h.not_hasNegativeTerm hd hw hcompare (Or.inr ⟨hz, rfl⟩)⟩ }
  | conditional test whenTrue whenFalse => exact hrest.conditional

theorem NormalForm.everywhere_reduced {e : Expr} (h : engine.NormalForm parent e)
    (hd : engine.registry = .default) (hw : e.WellFormed) : e.Everywhere Expr.Reduced := by
  induction e using Expr.induction generalizing parent with
  | h e ih =>
    exact everywhere_iff.mpr ⟨h.reduced hd hw, fun c hm =>
      ih c hm ((normalForm_iff.mp h).2 c hm) (hw.of_mem_children hm)⟩

/-- Every node of a simplified expression is reduced. -/
theorem everywhere_reduced_of_simplify {e r : Expr} {config : Config} (hw : e.WellFormed)
    (h : simplify e config = .ok r) : r.Everywhere Expr.Reduced := by
  obtain ⟨levels, steps, hnorm⟩ := normalizes_of_simplify h
  exact hnorm.normalForm.everywhere_reduced rfl (hnorm.wellFormed rfl hw)

/-- `-6 + x * y + x * x < 0` becomes `x * y + x ** 2 < 6`. -/
theorem everywhere_reduced_of_moved_constant :
    let x := Expr.symbol "x"
    let y := Expr.symbol "y"
    let sum := Expr.nary .add
      [(.int (-6), 1), (.nary .mul [(x, 1), (y, 1)], 1), (.nary .mul [(x, 2)], 1)]
    let rest := Expr.nary .add [(.nary .mul [(x, 1), (y, 1)], 1), (.binary .pow x (.int 2), 1)]
    (Expr.cmpLt sum (.int 0)).WellFormed ∧
      simplify (.cmpLt sum (.int 0)) = .ok (.cmpLt rest (.int 6)) ∧
      (Expr.cmpLt rest (.int 6)).Everywhere Expr.Reduced := by
  have hrun : simplify (.cmpLt (.nary .add [(.int (-6), 1),
      (.nary .mul [(.symbol "x", 1), (.symbol "y", 1)], 1), (.nary .mul [(.symbol "x", 2)], 1)])
      (.int 0)) = .ok (.cmpLt (.nary .add [(.nary .mul [(.symbol "x", 1), (.symbol "y", 1)], 1),
      (.binary .pow (.symbol "x") (.int 2), 1)]) (.int 6)) := rfl
  exact ⟨by decide, hrun, everywhere_reduced_of_simplify (by decide) hrun⟩

end Engine
end Symbolic
