import Symbolic.Proofs.Reduced

/-! Which factor is pulled out: the one that the most terms share, the least of them where several
are shared by as many. The terms that give it up become one, so that fewer are left. -/
namespace Symbolic

namespace Rules

open Symbolic.Expr

variable {op inner : SemigroupOp} {factor term : Expr} {terms : Bag}

/-- No term that is an operation of `inner` has an operand that is one too. -/
def FlatTerms (inner : SemigroupOp) (terms : Bag) : Prop :=
  ∀ term ∈ Bag.keys terms, term.op? = some (.semigroup inner) →
    ∀ child ∈ term.children, child.op? ≠ some (.semigroup inner)

instance (inner : SemigroupOp) (terms : Bag) : Decidable (FlatTerms inner terms) :=
  inferInstanceAs (Decidable (∀ term ∈ Bag.keys terms, _ → _))

theorem mem_factorCounts_iff (hw : (nary op terms).WellFormed) {n : Nat} :
    (factor, n) ∈ factorCounts inner terms ↔ n ≠ 0 ∧ sharers inner factor terms = n := by
  rw [factorCounts, Bag.mem_iff_count_elements (Bag.canonical_ofList _),
    (Bag.elements_ofList _).count_eq, count_factors_eq_sharers hw]

/-- A factor that is found leads all others: more terms share it, or as many and it is less. -/
theorem commonFactor?_eq_some (hw : (nary op terms).WellFormed)
    (h : commonFactor? inner terms = some factor) :
    (∀ other, sharers inner other terms ≤ sharers inner factor terms) ∧
      ∀ other, sharers inner other terms = sharers inner factor terms → other ≠ factor →
        compare factor other = .lt := by
  obtain ⟨⟨_, n⟩, hmost, rfl⟩ := Option.map_eq_some_iff.mp h
  have hleads := leading_mostCommon? (factorCounts inner terms)
  rw [hmost] at hleads
  have hmost := (mem_factorCounts_iff hw).mp (mostCommon?_eq_some hmost).1
  dsimp only
  rw [hmost.2]
  refine ⟨fun other => ?_, fun other hsame hne => ?_⟩
  · by_cases hzero : sharers inner other terms = 0
    · omega
    · exact hleads.le _ ((mem_factorCounts_iff hw).mpr ⟨hzero, rfl⟩)
  · have hother : (other, n) ∈ factorCounts inner terms :=
      (mem_factorCounts_iff hw).mpr ⟨hmost.1, hsame⟩
    have hsorted : (factorCounts inner terms).Canonical := Bag.canonical_ofList _
    obtain ⟨_, earlier, later, hcounts, hearlier, _⟩ := hleads
    rw [hcounts] at hother hsorted
    rcases List.mem_append.mp hother with hm | hm
    · exact absurd (hearlier _ hm) (Nat.lt_irrefl n)
    · rcases List.mem_cons.mp hm with heq | hm
      · exact absurd (congrArg Prod.fst heq) hne
      · have hafter := (List.pairwise_append.mp hsorted.1).2.1
        exact (List.pairwise_cons.mp hafter).1 _ hm

theorem exists_distinct_of_two_le_countP {p : Expr → Bool} {es : List Expr} (hnodup : es.Nodup)
    (h : 2 ≤ es.countP p) : ∃ e ∈ es, ∃ e' ∈ es, e ≠ e' ∧ p e ∧ p e' := by
  rw [List.countP_eq_length_filter] at h
  obtain ⟨e, e', rest, hfilter⟩ : ∃ e e' rest, es.filter p = e :: e' :: rest := by
    match hes : es.filter p with
    | [] | [_] => simp [hes] at h
    | e :: e' :: rest => exact ⟨e, e', rest, rfl⟩
  have hdistinct := hnodup.filter p
  rw [hfilter] at hdistinct
  have he : e ∈ es.filter p := by simp [hfilter]
  have he' : e' ∈ es.filter p := by simp [hfilter]
  refine ⟨e, List.mem_of_mem_filter he, e', List.mem_of_mem_filter he', ?_,
    (List.mem_filter.mp he).2, (List.mem_filter.mp he').2⟩
  rintro rfl
  simp at hdistinct

/-- A factor is found where two terms share one, and only there. -/
theorem exists_commonFactor?_iff (hw : (nary op terms).WellFormed) :
    (∃ factor, commonFactor? inner terms = some factor) ↔
      ∃ factor : Expr, ∃ e ∈ Bag.keys terms, ∃ e' ∈ Bag.keys terms,
        e ≠ e' ∧ factor.IsFactor inner e ∧ factor.IsFactor inner e' := by
  constructor
  · rintro ⟨factor, h⟩
    obtain ⟨e, he, e', he', hne, hf, hf'⟩ := exists_distinct_of_two_le_countP
      hw.canonical.nodup_keys (two_le_sharers hw h)
    exact ⟨factor, e, he, e', he', hne, of_decide_eq_true hf, of_decide_eq_true hf'⟩
  · rintro ⟨factor, e, he, e', he', hne, hf, hf'⟩
    exact Option.isSome_iff_exists.mp (isSome_commonFactor? he he' hne
      (mem_factors_iff.mpr hf) (mem_factors_iff.mpr hf'))

theorem isFactor_of_commonFactor? (h : commonFactor? inner terms = some factor) :
    ∃ e ∈ Bag.keys terms, factor.IsFactor inner e := by
  obtain ⟨e, he, hf⟩ := exists_mem_factors h
  exact ⟨e, he, mem_factors_iff.mp hf⟩

/-- No factor of flat terms is an operation of `inner` itself. -/
theorem IsFactor.op?_ne (hflat : FlatTerms inner terms) (hm : term ∈ Bag.keys terms)
    (h : factor.IsFactor inner term) : factor.op? ≠ some (.semigroup inner) := by
  obtain ⟨_, hf⟩ := h
  split at hf
  · next ho => exact hflat term hm ho factor hf
  · next ho => exact hf ▸ ho

/-- Where a factor is taken from a term, it is one of the term's. -/
theorem isFactor_of_isSome_cofactor? (hc : factor.isConstant = false)
    (hop : factor.op? ≠ some (.semigroup inner)) (h : (cofactor? inner factor term).isSome = true) :
    factor.IsFactor inner term := by
  refine ⟨hc, ?_⟩
  unfold cofactor? at h
  split at h
  · next heq =>
    subst heq
    rw [if_neg hop]
  · split at h
    · next inner' operands _ =>
      split at h
      · next hin =>
        obtain ⟨rfl, hcontains⟩ : inner' = inner ∧ Bag.contains factor operands = true := by
          simpa using hin
        obtain ⟨entry, hentry, heq⟩ := List.any_eq_true.mp hcontains
        have hm : entry.1 ∈ children (.nary inner' operands) := List.mem_map_of_mem hentry
        exact (if_pos rfl).mpr (of_decide_eq_true heq ▸ hm)
      · cases h
    · cases h

theorem isSome_cofactor?_iff (hflat : FlatTerms inner terms)
    (h : commonFactor? inner terms = some factor) (term : Expr) :
    (cofactor? inner factor term).isSome = true ↔ factor.IsFactor inner term := by
  obtain ⟨e, he, hf⟩ := isFactor_of_commonFactor? h
  exact ⟨isFactor_of_isSome_cofactor? hf.1 (IsFactor.op?_ne hflat he hf),
    fun hf => isSome_cofactor? (mem_factors_iff.mpr hf)⟩

/-- The factor of `a * b + (a * b) * c + (a * b) * d` is taken from `a * b` too, which is no factor
of itself. -/
example :
    let product := nary .mul [(symbol "a", 1), (symbol "b", 1)]
    let terms : Bag := [(product, 1), (nary .mul [(symbol "c", 1), (product, 1)], 1),
      (nary .mul [(symbol "d", 1), (product, 1)], 1)]
    commonFactor? .mul terms = some product ∧ ¬ product.IsFactor .mul product ∧
      (cofactor? .mul product product).isSome = true := by
  decide

/-- Two entries give up the factor at least, and one comes back for them. -/
theorem exists_factored_eq (hw : (nary op terms).WellFormed)
    (h : commonFactor? inner terms = some factor) :
    ∃ terms', factored op inner factor terms = .nary op terms' ∧ Bag.Canonical terms' ∧
      terms'.length < terms.length := by
  refine ⟨_, factored_eq op inner factor terms,
    Bag.canonical_insert _ (Bag.canonical_filter _ hw.canonical), ?_⟩
  have htwo := two_le_sharers hw h
  have hsharers := sharers_le_length_sharing inner factor terms
  have hparts := List.length_eq_length_filter_add (l := terms)
    fun entry => (cofactor? inner factor entry.1).isSome
  have hinsert := Bag.length_insert_le
    (.pair inner factor (.nary op (Bag.ofEntries (cofactors inner factor terms))))
    (terms.filter fun entry => !(cofactor? inner factor entry.1).isSome)
  rw [← sharing] at hparts
  omega

/-- The least of the factors that most terms share is pulled out, wherever two terms share one, and
the node has fewer operands then. Of flat terms just those give it up that it is a factor of. -/
theorem most_shared_factor_is_pulled_out (hw : (nary op terms).WellFormed)
    (hi : innerOf? op = some inner) :
    ((∃ factor, commonFactor? inner terms = some factor) ↔
      ∃ factor : Expr, ∃ e ∈ Bag.keys terms, ∃ e' ∈ Bag.keys terms,
        e ≠ e' ∧ factor.IsFactor inner e ∧ factor.IsFactor inner e') ∧
    (∀ factor, commonFactor? inner terms = some factor →
      (∀ other, sharers inner other terms ≤ sharers inner factor terms) ∧
      (∀ other, sharers inner other terms = sharers inner factor terms → other ≠ factor →
        compare factor other = .lt) ∧
      (FlatTerms inner terms → ∀ term ∈ Bag.keys terms,
        ((cofactor? inner factor term).isSome = true ↔ factor.IsFactor inner term))) ∧
    ∀ ctx, distribute.applies ctx (nary op terms) = true →
      ∃ e', distribute.rewrite ctx (nary op terms) = .ok e' ∧ e'.op? = some (.semigroup op) ∧
        e'.children.Nodup ∧ e'.children.length < (nary op terms).children.length := by
  refine ⟨exists_commonFactor?_iff hw, fun factor h => ?_, fun ctx happlies => ?_⟩
  · obtain ⟨hmost, hleast⟩ := commonFactor?_eq_some hw h
    exact ⟨hmost, hleast, fun hflat term _ => isSome_cofactor?_iff hflat h term⟩
  · obtain ⟨factor, h⟩ : ∃ factor, commonFactor? inner terms = some factor := by
      have happlies : ((innerOf? op).bind fun inner => commonFactor? inner terms).isSome = true :=
        happlies
      rw [hi] at happlies
      exact Option.isSome_iff_exists.mp happlies
    have hrewrite : distribute.rewrite ctx (nary op terms) =
        .ok (factored op inner factor terms) := by
      simp only [distribute, hi, h]
    obtain ⟨terms', heq, hcanonical, hlt⟩ := exists_factored_eq hw h
    rw [heq] at hrewrite
    refine ⟨_, hrewrite, rfl, hcanonical.nodup_keys, ?_⟩
    simpa [children] using hlt

/-- In `a * b + a * c + b * d` both `a` and `b` are shared by two terms. The sum becomes
`a * (b + c) + b * d`. -/
theorem most_shared_factor_is_pulled_out_of_tie :
    let a := Expr.symbol "a"
    let b := Expr.symbol "b"
    let c := Expr.symbol "c"
    let d := Expr.symbol "d"
    let terms : Bag := [(nary .mul [(a, 1), (b, 1)], 1), (nary .mul [(a, 1), (c, 1)], 1),
      (nary .mul [(b, 1), (d, 1)], 1)]
    (nary .add terms).WellFormed ∧ innerOf? .add = some .mul ∧ FlatTerms .mul terms ∧
      commonFactor? .mul terms = some a ∧ sharers .mul b terms = sharers .mul a terms ∧
      compare a b = .lt ∧
      ∀ ctx, ∃ e', distribute.rewrite ctx (nary .add terms) = .ok e' ∧ e'.children.length < 3 := by
  intro a b c d terms
  have hw : (nary .add terms).WellFormed := by decide
  have hcommon : commonFactor? .mul terms = some a := by decide
  have hties : sharers .mul b terms = sharers .mul a terms := by decide
  obtain ⟨_, hchosen, hrewrite⟩ := most_shared_factor_is_pulled_out hw rfl
  refine ⟨hw, rfl, by decide, hcommon, hties, (hchosen a hcommon).2.1 b hties (by decide), ?_⟩
  intro ctx
  obtain ⟨e', he', _, _, hlt⟩ := hrewrite ctx rfl
  exact ⟨e', he', hlt⟩

end Rules
end Symbolic
