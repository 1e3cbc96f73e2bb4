import Symbolic.Proofs.Conjunctions
import Symbolic.Proofs.Powers

/-! The way in which products and conjunctions are nested matters to their simplification by the
factors that are gathered and the integers that are kept, and by nothing else. -/
namespace Symbolic

namespace Expr

/-- What an expression is an operation of the operator over: all by itself, where it is no such
operation, and of nothing, where it is the identity. -/
def HasOperand (op : SemigroupOp) (e x : Expr) : Prop :=
  if e.op? = some (.semigroup op) then x ∈ e.children else x = e ∧ e ≠ .constant op.identity

variable {op : SemigroupOp} {terms : Bag} {e x : Expr}

theorem hasOperand_nary : HasOperand op (.nary op terms) x ↔ x ∈ Bag.keys terms := by
  rw [HasOperand, op?, if_pos rfl]
  rfl

theorem hasOperand_of_ne (ho : e.op? ≠ some (.semigroup op)) :
    HasOperand op e x ↔ x = e ∧ e ≠ .constant op.identity := by
  rw [HasOperand, if_neg ho]

end Expr

/-- An operation in normal form has two operands, which is more than anything else has. -/
theorem ReducedTerms.exists_two {op : SemigroupOp} {terms : Bag} (h : ReducedTerms op terms) :
    ∃ x ∈ Bag.keys terms, ∃ y ∈ Bag.keys terms, x ≠ y := by
  have htwo := h.two_le_length
  have hnodup := h.nodup
  match terms with
  | [] => cases htwo
  | [_] => cases htwo with | step h => cases h
  | first :: second :: _ =>
    refine ⟨first.1, List.mem_cons_self, second.1, List.mem_cons_of_mem _ List.mem_cons_self, ?_⟩
    exact fun heq => (List.nodup_cons.mp hnodup).1 (heq ▸ List.mem_cons_self)

namespace Engine

open Rules Symbolic.Expr

variable {engine : Engine} {config : Config} {levels steps : Nat} {parent : Option Operator}
  {op : SemigroupOp} {terms : Bag} {t t' r r' x : Expr} {width : Nat}

/-- Normal forms that have the same operands are the same. -/
theorem NormalForm.eq_of_operands (h : engine.NormalForm parent r)
    (h' : engine.NormalForm parent r')
    (hd : engine.registry = .default) (hw : r.WellFormed) (hw' : r'.WellFormed) (op : SemigroupOp)
    (hsame : ∀ x, HasOperand op r x ↔ HasOperand op r' x) : r = r' := by
  have unlike {r r' : Expr} (h : engine.NormalForm parent r) (hw : r.WellFormed)
      (hsame : ∀ x, HasOperand op r x ↔ HasOperand op r' x) (ho : r.op? = some (.semigroup op)) :
      r'.op? = some (.semigroup op) := by
    by_contra ho'
    obtain ⟨terms, rfl⟩ := isNary_iff.mp (decide_eq_true ho)
    obtain ⟨x, hx, y, hy, hne⟩ := ReducedTerms.exists_two (h.reduced hd hw : ReducedTerms op terms)
    have hx' := (hasOperand_of_ne ho').mp ((hsame x).mp (hasOperand_nary.mpr hx))
    have hy' := (hasOperand_of_ne ho').mp ((hsame y).mp (hasOperand_nary.mpr hy))
    exact hne (hx'.1.trans hy'.1.symm)
  by_cases ho : r.op? = some (.semigroup op)
  · have ho' := unlike h hw hsame ho
    obtain ⟨terms, rfl⟩ := isNary_iff.mp (decide_eq_true ho)
    obtain ⟨terms', rfl⟩ := isNary_iff.mp (decide_eq_true ho')
    have hreduced : ReducedTerms op terms := h.reduced hd hw
    have hreduced' : ReducedTerms op terms' := h'.reduced hd hw'
    refine congrArg _ (hw.canonical.eq_of_perm hw'.canonical ?_)
    rw [Bag.elements_eq_keys hreduced.count_eq_one, Bag.elements_eq_keys hreduced'.count_eq_one]
    refine (List.perm_ext_iff_of_nodup hreduced.nodup hreduced'.nodup).mpr fun x => ?_
    exact hasOperand_nary.symm.trans ((hsame x).trans hasOperand_nary)
  · have ho' : r'.op? ≠ some (.semigroup op) := fun ho' =>
      ho (unlike h' hw' (fun x => (hsame x).symm) ho')
    simp only [hasOperand_of_ne ho, hasOperand_of_ne ho'] at hsame
    by_cases hr : r = .constant op.identity
    · by_contra hne
      exact ((hsame r').mpr ⟨rfl, fun hr' => hne (hr.trans hr'.symm)⟩).2 hr
    · exact ((hsame r).mp ⟨rfl, hr⟩).1

/-- A product in normal form is worth its integer, where all symbols are one. -/
theorem worth_of_reduced_product (h : ReducedTerms .mul terms) (hp : Product (.nary .mul terms))
    (hx : ∀ x ∈ Bag.keys terms, Operand x) (c : Int) :
    .int c ∈ Bag.keys terms ↔ c ≠ 1 ∧ c = (Expr.nary .mul terms).worth (allOnes width) .value := by
  have hworth : (Expr.nary .mul terms).worth (allOnes width) .value =
      SemigroupOp.total .mul ((Bag.keys terms).map (worth (allOnes width) .value)) := by
    rw [← Bag.elements_eq_keys h.count_eq_one]
    exact worth_nary hp.defined_allOnes
  have hvalue {c : Int} (hc : .int c ∈ Bag.keys terms) :
      c = (Expr.nary .mul terms).worth (allOnes width) .value := by
    rw [hworth, SemigroupOp.total_of_unique h.nodup hc fun x hkey hne => ?_]
    · exact (SemigroupOp.seen_of_isLogical_eq_false rfl _).symm
    · cases hx x hkey with
      | int v => exact (hne (congrArg Expr.constant (h.constant_unique _ _ hkey hc))).elim
      | power hpower => exact worth_of_read hpower.read_allOnes
  constructor
  · intro hc
    exact ⟨fun hone => h.ne_identity _ hc (congrArg Number.int hone), hvalue hc⟩
  · rintro ⟨hone, hc⟩
    by_cases hsome : ∃ w, .int w ∈ Bag.keys terms
    · obtain ⟨w, hw⟩ := hsome
      rwa [hc, ← hvalue hw]
    · refine (hone (hc.trans (hworth.trans
        (SemigroupOp.total_of_forall_neutral fun x hkey => ?_)))).elim
      cases hx x hkey with
      | int v => exact (hsome ⟨v, hkey⟩).elim
      | power hpower => exact worth_of_read hpower.read_allOnes

/-- The operands of a product in normal form are its factors and its value where all symbols are
one. -/
theorem NormalForm.hasOperand_mul (h : engine.NormalForm parent r) (hd : engine.registry = .default)
    (hw : r.WellFormed) (hp : Product r) :
    HasOperand .mul r x ↔ x ∈ r.powers ∨
      ∃ c : Int, x = .int c ∧ c ≠ 1 ∧ c = r.worth (allOnes width) .value := by
  cases hp with
  | operand hoperand =>
    rw [hasOperand_of_ne (hoperand.op?_ne .mul)]
    cases hoperand with
    | int v =>
      constructor
      · rintro ⟨rfl, hone⟩
        exact Or.inr ⟨v, rfl, fun hv => hone (congrArg Expr.int hv), rfl⟩
      · rintro (hnone | ⟨c, rfl, hone, rfl⟩)
        · cases hnone
        · exact ⟨rfl, fun hv => hone (Number.int.inj (Expr.constant.inj hv))⟩
    | power hpower =>
      rw [hpower.powers_eq, worth_of_read hpower.read_allOnes, Multiset.mem_singleton]
      constructor
      · exact fun hx => Or.inl hx.1
      · rintro (rfl | ⟨c, rfl, hone, hc⟩)
        · refine ⟨rfl, ?_⟩
          rintro rfl
          cases hpower
        · exact (hone hc).elim
  | @nested terms hkeys =>
    have hproduct : Product (.nary .mul terms) := .nested hkeys
    have hreduced : ReducedTerms .mul terms := h.reduced hd hw
    have hoperand : ∀ x ∈ Bag.keys terms, Operand x := fun x hx => h.operand hd hw hproduct hx
    rw [hasOperand_nary, powers, distinct_of_nodup (h.nodup_powers hd hw hproduct),
      powersTerms_of_operands hoperand, Multiset.mem_coe,
      Bag.elements_filter_keys fun x => !x.isConstant,
      List.mem_filter, Bag.mem_elements_iff_mem_keys hw.canonical]
    simp only [← worth_of_reduced_product hreduced hproduct hoperand]
    constructor
    · intro hx
      cases hoperand x hx with
      | int v => exact Or.inr ⟨v, rfl, hx⟩
      | power hpower => exact Or.inl ⟨hx, by rw [hpower.isConstant_eq]; rfl⟩
    · rintro (⟨hx, _⟩ | ⟨c, rfl, hx⟩)
      · exact hx
      · exact hx

/-- The operands of a conjunction in normal form are the integer that it keeps and its symbols. -/
theorem NormalForm.hasOperand_and (h : engine.NormalForm parent r) (hd : engine.registry = .default)
    (hc : Conjunction r) : HasOperand .and r x ↔
      (∃ v : Int, x = .int v ∧ v ≠ 1 ∧ v ∈ r.kept) ∨ ∃ name, x = .symbol name ∧ x ∈ r.leaves := by
  by_cases ho : r.op? = some (.semigroup .and)
  · obtain ⟨terms, rfl⟩ := isNary_iff.mp (decide_eq_true ho)
    have hreduced : ReducedTerms .and terms := h.reduced hd hc.wellFormed
    have hleaf : ∀ x ∈ Bag.keys terms, IsLeaf x :=
      fun x hx => h.isLeaf hd hc.wellFormed hc.nests hx
    rw [hasOperand_nary, h.kept_eq hd hc, leaves_nary_of_leaves hleaf,
      Bag.mem_elements_iff_mem_keys hc.wellFormed.canonical]
    simp only [mem_keptTerms_of_leaves hleaf]
    constructor
    · intro hx
      cases hleaf x hx with
      | int v =>
        exact Or.inl ⟨v, rfl, fun hone => hreduced.ne_identity _ hx (congrArg Number.int hone), hx⟩
      | symbol name => exact Or.inr ⟨name, rfl, hx⟩
    · rintro (⟨v, rfl, _, hx⟩ | ⟨name, _, hx⟩)
      · exact hx
      · exact hx
  · rw [hasOperand_of_ne ho]
    cases hc.nests.isLeaf_of_flat ho with
    | int v =>
      constructor
      · rintro ⟨rfl, hone⟩
        exact Or.inl ⟨v, rfl, fun hv => hone (congrArg Expr.int hv), Finset.mem_singleton_self v⟩
      · rintro (⟨w, rfl, hone, hw⟩ | ⟨name, rfl, hx⟩)
        · obtain rfl := Finset.mem_singleton.mp hw
          exact ⟨rfl, fun hv => hone (Number.int.inj (Expr.constant.inj hv))⟩
        · cases List.mem_singleton.mp hx
    | symbol name =>
      constructor
      · rintro ⟨rfl, _⟩
        exact Or.inr ⟨name, rfl, List.mem_cons_self⟩
      · rintro (⟨w, rfl, _, hw⟩ | ⟨other, rfl, hx⟩)
        · cases hw
        · exact ⟨List.mem_singleton.mp hx, nofun⟩

/-- A product in normal form that is worth nothing is zero. -/
theorem NormalForm.eq_zero_of_worth (h : engine.NormalForm parent r)
    (hd : engine.registry = .default)
    (hw : r.WellFormed) (hp : Product r) (hzero : r.worth (allOnes width) .value = 0) :
    r = .int 0 := by
  cases hp with
  | operand hoperand =>
    cases hoperand with
    | int v => exact congrArg Expr.int hzero
    | power hpower =>
      rw [worth_of_read hpower.read_allOnes] at hzero
      cases hzero
  | @nested terms hkeys =>
    have hproduct : Product (.nary .mul terms) := .nested hkeys
    have hreduced : ReducedTerms .mul terms := h.reduced hd hw
    have hoperand : ∀ x ∈ Bag.keys terms, Operand x := fun x hx => h.operand hd hw hproduct hx
    have hmem := (worth_of_reduced_product hreduced hproduct hoperand 0).mpr ⟨by decide, hzero.symm⟩
    exact (hreduced.not_absorbs _ hmem rfl).elim

/-- A conjunction in normal form that has a zero among its leaves is zero. -/
theorem NormalForm.eq_zero_of_leaf (h : engine.NormalForm parent r)
    (hd : engine.registry = .default)
    (hc : Conjunction r) (hzero : .int 0 ∈ r.leaves) : r = .int 0 := by
  by_cases ho : r.op? = some (.semigroup .and)
  · obtain ⟨terms, rfl⟩ := isNary_iff.mp (decide_eq_true ho)
    have hreduced : ReducedTerms .and terms := h.reduced hd hc.wellFormed
    rw [leaves_nary_of_leaves fun x hx => h.isLeaf hd hc.wellFormed hc.nests hx] at hzero
    exact (hreduced.not_absorbs _ (Bag.mem_keys_of_mem_elements hzero) rfl).elim
  · cases hc.nests.isLeaf_of_flat ho with
    | int v => exact (List.mem_singleton.mp hzero).symm
    | symbol name => cases List.mem_singleton.mp hzero

section

variable (hd : engine.registry = .default) (hw : t.WellFormed) (hw' : t'.WellFormed)
  (hleaves : t.leaves.Perm t'.leaves) {levels' steps' : Nat}
  (h : engine.Normalizes levels parent t r steps)
  (h' : engine.Normalizes levels' parent t' r' steps')

include hd hw hw' hleaves h h'

/-- Nested products over the same leaves have the same normal form if these have a zero among them,
or if the products have the same factors. -/
theorem Normalizes.eq_iff_of_products (ht : t.Nests .mul) (ht' : t'.Nests .mul) :
    r = r' ↔ .int 0 ∈ t.leaves ∨ t.powers = t'.powers := by
  have hkept := h.keepsPowers hd hw
  have hkept' := h'.keepsPowers hd hw'
  have hproduct := product_of_nests ht
  have hproduct' := product_of_nests ht'
  have hzero : .int 0 ∈ t.leaves ↔ t.worth (allOnes engine.config.wordBits) .value = 0 :=
    ht.zero_mem_iff (Or.inl rfl)
  have hvalue {t : Expr} (ht : t.Nests .mul) : t.worth (allOnes engine.config.wordBits) .value =
      SemigroupOp.total .mul (t.leaves.map (worth (allOnes engine.config.wordBits) .value)) :=
    (SemigroupOp.seen_of_isLogical_eq_false rfl _).symm.trans (ht.defined_and_seen_worth _).2
  have hworth : r.worth (allOnes engine.config.wordBits) .value =
      t.worth (allOnes engine.config.wordBits) .value := worth_of_accords hkept.accords hproduct
  have hworth' : r'.worth (allOnes engine.config.wordBits) .value =
      t.worth (allOnes engine.config.wordBits) .value := by
    rw [worth_of_accords hkept'.accords hproduct', hvalue ht', hvalue ht]
    exact SemigroupOp.total_perm (hleaves.symm.map _)
  have hr := h.wellFormed hd hw
  have hr' := h'.wellFormed hd hw'
  by_cases hz : t.worth (allOnes engine.config.wordBits) .value = 0
  · have hsame : r = .int 0 :=
      h.normalForm.eq_zero_of_worth hd hr (hkept.product hproduct) (hworth.trans hz)
    have hsame' : r' = .int 0 :=
      h'.normalForm.eq_zero_of_worth hd hr' (hkept'.product hproduct') (hworth'.trans hz)
    exact iff_of_true (hsame.trans hsame'.symm) (Or.inl (hzero.mpr hz))
  · have hz' : t'.worth (allOnes engine.config.wordBits) .value ≠ 0 := by
      rwa [← worth_of_accords hkept'.accords hproduct', hworth']
    rw [or_iff_right (hzero.not.mpr hz), ← hkept.powers hproduct hz, ← hkept'.powers hproduct' hz']
    refine ⟨congrArg powers, fun hsame => ?_⟩
    refine h.normalForm.eq_of_operands h'.normalForm hd hr hr' .mul fun x => ?_
    rw [h.normalForm.hasOperand_mul hd hr (hkept.product hproduct),
      h'.normalForm.hasOperand_mul hd hr' (hkept'.product hproduct'), hsame, hworth, hworth']

-- Where four copies are multiplied one by one, the two that are left meet the square of the others.
example : (Expr.nary .mul [(.symbol "x", 1),
    (.nary .mul [(.symbol "x", 1), (.nary .mul [(.symbol "x", 2)], 1)], 1)]).powers =
      {.pow (.pow (.symbol "x") (.int 2)) (.int 2)} := by decide

/-- Nested conjunctions over the same leaves have the same normal form if these have a zero among
them, or if the conjunctions keep the same integers. -/
theorem Normalizes.eq_iff_of_conjunctions (ht : t.Nests .and) (ht' : t'.Nests .and) :
    r = r' ↔ .int 0 ∈ t.leaves ∨ t.kept = t'.kept := by
  have hkept := h.keepsIntegers hd hw
  have hkept' := h'.keepsIntegers hd hw'
  have hc : Conjunction t := ⟨hw, ht⟩
  have hc' : Conjunction t' := ⟨hw', ht'⟩
  have hr := hkept.conjunction hc
  have hr' := hkept'.conjunction hc'
  have hzero := zero_mem_iff_of_accords hc hr hkept.accords
  have hzero' := (zero_mem_iff_of_accords hc' hr' hkept'.accords).trans hleaves.mem_iff.symm
  by_cases hz : .int 0 ∈ t.leaves
  · have hsame : r = .int 0 := h.normalForm.eq_zero_of_leaf hd hr (hzero.mpr hz)
    have hsame' : r' = .int 0 := h'.normalForm.eq_zero_of_leaf hd hr' (hzero'.mpr hz)
    exact iff_of_true (hsame.trans hsame'.symm) (Or.inl hz)
  · have hz' : .int 0 ∉ t'.leaves := hleaves.mem_iff.not.mp hz
    rw [or_iff_right hz, ← hkept.kept hc hz, ← hkept'.kept hc' hz']
    refine ⟨congrArg kept, fun hsame => ?_⟩
    refine h.normalForm.eq_of_operands h'.normalForm hd hr.wellFormed hr'.wellFormed .and
      fun x => ?_
    rw [h.normalForm.hasOperand_and hd hr, h'.normalForm.hasOperand_and hd hr', hsame]
    refine or_congr_right (exists_congr fun name => and_congr_right ?_)
    rintro rfl
    exact (symbol_mem_iff_of_accords hc hr hkept.accords hz name).trans (hleaves.mem_iff.trans
      (symbol_mem_iff_of_accords hc' hr' hkept'.accords hz' name).symm)

end

/-- Nested products or conjunctions over the same integers and symbols simplify to the same if a
zero is among these, and else just where the nesting leaves the same factors, or the same integers.
No rule looks into a power that an inner product has made, and an integer that is left alone in a
conjunction stays. -/
theorem eq_iff_of_perm_leaves (hop : op = .mul ∨ op = .and) (hw : t.WellFormed)
    (hw' : t'.WellFormed) (ht : t.Nests op) (ht' : t'.Nests op) (hleaves : t.leaves.Perm t'.leaves)
    (h : simplify t config = .ok r) (h' : simplify t' config = .ok r') :
    r = r' ↔ .int 0 ∈ t.leaves ∨
      (op = .mul → t.powers = t'.powers) ∧ (op = .and → t.kept = t'.kept) := by
  obtain ⟨_, _, hnorm⟩ := normalizes_of_simplify h
  obtain ⟨_, _, hnorm'⟩ := normalizes_of_simplify h'
  rcases hop with rfl | rfl
  · refine (hnorm.eq_iff_of_products rfl hw hw' hleaves hnorm' ht ht').trans (or_congr_right ?_)
    exact ⟨fun hsame => ⟨fun _ => hsame, nofun⟩, fun hsame => hsame.1 rfl⟩
  · refine (hnorm.eq_iff_of_conjunctions rfl hw hw' hleaves hnorm' ht ht').trans (or_congr_right ?_)
    exact ⟨fun hsame => ⟨nofun, fun _ => hsame⟩, fun hsame => hsame.2 rfl⟩

/-- `(x * 2) * (3 * y * y)` and `2 * 3 * x * y * y` both become `6 * x * y ** 2`. -/
theorem eq_iff_of_perm_leaves_of_products :
    let x := Expr.symbol "x"
    let y := Expr.symbol "y"
    let t := Expr.nary .mul
      [(.nary .mul [(.int 2, 1), (x, 1)], 1), (.nary .mul [(.int 3, 1), (y, 2)], 1)]
    let t' := Expr.nary .mul [(.int 2, 1), (.int 3, 1), (x, 1), (y, 2)]
    t.WellFormed ∧ t'.WellFormed ∧ t.Nests .mul ∧ t'.Nests .mul ∧ t.leaves.Perm t'.leaves ∧
      t.powers = t'.powers ∧ ∃ r r', simplify t {} = .ok r ∧ simplify t' {} = .ok r' ∧ r = r' := by
  have hrun : ∃ r, simplify (.nary .mul [(.nary .mul [(.int 2, 1), (.symbol "x", 1)], 1),
      (.nary .mul [(.int 3, 1), (.symbol "y", 2)], 1)]) {} = .ok r := ⟨_, rfl⟩
  have hrun' : ∃ r, simplify (.nary .mul [(.int 2, 1), (.int 3, 1), (.symbol "x", 1),
      (.symbol "y", 2)]) {} = .ok r := ⟨_, rfl⟩
  obtain ⟨r, h⟩ := hrun
  obtain ⟨r', h'⟩ := hrun'
  refine ⟨by decide, by decide, by decide, by decide, by decide, by decide, r, r', h, h', ?_⟩
  exact (eq_iff_of_perm_leaves (Or.inl rfl) (by decide) (by decide) (by decide : Expr.Nests .mul _)
    (by decide) (by decide) h h').mpr (Or.inr ⟨fun _ => by decide, nofun⟩)

/-- `(x * x) * x` keeps the square that the inner product makes, and `(1 && x) && 5` the five that
the outer conjunction finds alone. -/
theorem simplify_grouped_operands :
    let x := Expr.symbol "x"
    let t := Expr.nary .mul [(x, 1), (.nary .mul [(x, 2)], 1)]
    let t' := Expr.nary .mul [(x, 3)]
    let c := Expr.nary .and [(.int 5, 1), (.nary .and [(.int 1, 1), (x, 1)], 1)]
    let c' := Expr.nary .and [(.int 1, 1), (.int 5, 1), (x, 1)]
    (t.WellFormed ∧ t'.WellFormed ∧ t.Nests .mul ∧ t'.Nests .mul ∧ t.leaves.Perm t'.leaves ∧
      simplify t {} = .ok (.nary .mul [(x, 1), (.pow x (.int 2), 1)]) ∧
      simplify t' {} = .ok (.pow x (.int 3)) ∧
      Expr.nary .mul [(x, 1), (.pow x (.int 2), 1)] ≠ .pow x (.int 3)) ∧
    (c.WellFormed ∧ c'.WellFormed ∧ c.Nests .and ∧ c'.Nests .and ∧ c.leaves.Perm c'.leaves ∧
      simplify c {} = .ok (.nary .and [(.int 5, 1), (x, 1)]) ∧ simplify c' {} = .ok x ∧
      Expr.nary .and [(.int 5, 1), (x, 1)] ≠ x) :=
  ⟨⟨by decide, by decide, by decide, by decide, by decide, rfl, rfl, by decide⟩,
    ⟨by decide, by decide, by decide, by decide, by decide, rfl, rfl, by decide⟩⟩

end Engine
end Symbolic
