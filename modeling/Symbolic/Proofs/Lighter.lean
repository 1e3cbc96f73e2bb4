import Symbolic.Proofs.FoldedWeight
import Symbolic.Proofs.Legal

/-! Every rewrite of a default rule makes its node lighter, where the nodes below are heavy
enough. -/
namespace Symbolic.Rules

open Symbolic.Expr

/-- All but constants weigh as much as a symbol. Normal forms do. -/
def Heavy (e : Expr) : Prop := e.isConstant = false → 50 ≤ e.weight

variable {op inner : SemigroupOp} {terms : Bag} {e e' x factor : Expr} {width : Nat}

theorem scaledCount_le (n count : Nat) : scaledCount n count ≤ n * count := by
  simp only [scaledCount]
  split
  · exact Nat.le_refl _
  · next h =>
    have hn : 0 < n := by
      rcases Nat.eq_zero_or_pos n with rfl | hn
      · simp at h
      · exact hn
    have hcount : 0 < count := by
      rcases Nat.eq_zero_or_pos count with rfl | hcount
      · simp at h
      · exact hcount
    have hleft := Nat.le_mul_of_pos_right n hcount
    have hright := Nat.le_mul_of_pos_left count hn
    omega

theorem weightTerms_scaled_le (terms : Bag) (count : Nat) :
    weightTerms (terms.map fun entry => (entry.1, scaledCount entry.2 count)) ≤
      count * weightTerms terms := by
  induction terms with
  | nil => exact Nat.zero_le _
  | cons entry rest ih =>
    have hentry := Nat.mul_le_mul_right entry.1.weight (scaledCount_le entry.2 count)
    rw [List.map_cons, weightTerms, weightTerms, Nat.mul_add, ← Nat.mul_assoc,
      Nat.mul_comm count entry.2]
    exact Nat.add_le_add hentry ih

/-- Each copy of a nested operation saves the weight of its operator. -/
theorem weightTerms_nestedTerms_add_total (op : SemigroupOp) (terms : Bag) :
    weightTerms (nestedTerms op terms) + Bag.total (terms.filter fun entry => isNary op entry.1) ≤
      weightTerms (terms.filter fun entry => isNary op entry.1) := by
  induction terms with
  | nil => exact Nat.le_refl 0
  | cons entry rest ih =>
    obtain ⟨child, count⟩ := entry
    cases hn : isNary op child with
    | true =>
      obtain ⟨nested, rfl⟩ := isNary_iff.mp hn
      have hone : 1 ≤ op.weight := by cases op <;> simp [SemigroupOp.weight]
      have hscaled := weightTerms_scaled_le nested count
      have hcopies := Nat.mul_le_mul_left count hone
      rw [nestedTerms_cons_nary, List.filter_cons_of_pos (by exact hn), Bag.total,
        weightTerms_append, weightTerms, weight, Nat.mul_add]
      omega
    | false =>
      rw [nestedTerms_cons_other hn, List.filter_cons_of_neg (by simp [hn])]
      exact ih

theorem total_pos (hb : Bag.Canonical terms) {p : Expr × Nat → Bool}
    (h : ∃ entry ∈ terms, p entry = true) : 0 < Bag.total (terms.filter p) := by
  obtain ⟨entry, hm, hp⟩ := h
  have hfilter : entry ∈ terms.filter p := List.mem_filter.mpr ⟨hm, hp⟩
  have hpos := (Bag.canonical_filter p hb).2
  cases hc : terms.filter p with
  | nil => simp [hc] at hfilter
  | cons first rest =>
    have := hpos first (by simp [hc])
    simp only [Bag.total]
    omega

theorem weight_flattened_lt (hb : Bag.Canonical terms)
    (h : ∃ entry ∈ terms, isNary op entry.1 = true) :
    weightTerms (Bag.merge (terms.filter fun entry => !isNary op entry.1) (nestedTerms op terms)) <
      weightTerms terms := by
  have hsplit := weightTerms_filter_add (fun entry => isNary op entry.1) terms
  have hnested := weightTerms_nestedTerms_add_total op terms
  have hpos := total_pos hb h
  simp only [weightTerms_merge]
  omega

theorem weightArgs_keys (terms : Bag) :
    weightArgs (Bag.keys terms) = (terms.map fun entry => entry.1.weight).sum := by
  simp only [weightArgs_eq_sum, Bag.keys, List.map_map]
  rfl

theorem weightArgs_keys_le (hb : Bag.Canonical terms) :
    weightArgs (Bag.keys terms) ≤ weightTerms terms := by
  simp only [weightArgs_keys, weightTerms_eq_sum]
  apply List.sum_le_sum
  intro entry hm
  exact Nat.le_mul_of_pos_left _ (hb.2 entry hm)

theorem weightArgs_keys_lt (hb : Bag.Canonical terms) (h : ∃ entry ∈ terms, 1 < entry.2) :
    weightArgs (Bag.keys terms) < weightTerms terms := by
  obtain ⟨entry, hm, hn⟩ := h
  simp only [weightArgs_keys, weightTerms_eq_sum]
  refine List.sum_lt_sum _ _ (fun entry hm => Nat.le_mul_of_pos_left _ (hb.2 entry hm)) ?_
  exact ⟨entry, hm, Nat.lt_mul_iff_one_lt_left entry.1.weight_pos |>.mpr hn⟩

/-- A repeated child loses a copy, since at most one is left. -/
theorem weightArgs_odd_lt (hb : Bag.Canonical terms) (h : ∃ entry ∈ terms, 1 < entry.2) :
    weightArgs (Bag.keys (terms.filter fun entry => entry.2 % 2 = 1)) < weightTerms terms := by
  have hodd := Bag.canonical_filter (fun entry => decide (entry.2 % 2 = 1)) hb
  have hsplit := weightTerms_filter_add (fun entry => decide (entry.2 % 2 = 1)) terms
  obtain ⟨entry, hm, hn⟩ := h
  by_cases hp : entry.2 % 2 = 1
  · have hlt := weightArgs_keys_lt hodd
      ⟨entry, List.mem_filter.mpr ⟨hm, decide_eq_true hp⟩, hn⟩
    omega
  · have hle := weightArgs_keys_le hodd
    have hpos : 0 < weightTerms (terms.filter fun entry => !decide (entry.2 % 2 = 1)) :=
      weightTerms_pos ⟨entry, List.mem_filter.mpr ⟨hm, by simp [hp]⟩, by omega⟩
    omega

theorem weight_constant_le (value : Number) : (Expr.constant value).weight ≤ 9 := by
  have := value.excess_le
  simp only [weight, Number.weight]
  omega

theorem weight_natural_le (n : Nat) : (Expr.int n).weight ≤ 5 := by
  have hexcess : (Number.int n).excess ≤ 4 := by
    simp only [Number.excess]
    split
    · omega
    · rw [if_neg]
      simp [Number.isNegative]
  exact Nat.succ_le_succ hexcess

theorem weight_pair (op : SemigroupOp) (a b : Expr) :
    (Expr.pair op a b).weight = op.weight + (a.weight + b.weight) := by
  simp only [pair, weight, weightTerms_ofList, weightArgs, Nat.add_zero]

theorem weight_grouped_le (op : SemigroupOp) (child : Expr) (count : Nat) :
    (grouped op child count).weight ≤ child.weight + 25 := by
  have hcount := weight_natural_le count
  have hproduct : (Expr.mul child (.int count)).weight ≤ child.weight + 25 := by
    simp only [mul, weight_pair, SemigroupOp.weight]
    omega
  cases op with
  | mul =>
    simp only [grouped, pow, weight]
    omega
  | add | bitAnd | bitOr | bitXor | and | or => exact hproduct

/-- Two copies of a heavy child outweigh the operation that replaces them. -/
theorem weight_repeated_lt (hb : Bag.Canonical terms) (hheavy : ∀ x ∈ Bag.keys terms, Heavy x)
    (h : ∃ entry ∈ terms, 1 < entry.2 ∧ entry.1.isConstant = false) :
    weightTerms (terms.map fun entry => if entry.2 = 1 || entry.1.isConstant then entry
      else (grouped op entry.1 entry.2, 1)) < weightTerms terms := by
  have lighter (entry : Expr × Nat) (hm : entry ∈ terms) (hn : 1 < entry.2)
      (hc : entry.1.isConstant = false) :
      (grouped op entry.1 entry.2).weight < entry.2 * entry.1.weight := by
    have hgrouped := weight_grouped_le op entry.1 entry.2
    have hfifty := hheavy entry.1 (List.mem_map_of_mem hm) hc
    have htwo : 2 * entry.1.weight ≤ entry.2 * entry.1.weight := Nat.mul_le_mul_right _ hn
    omega
  simp only [weightTerms_eq_sum, List.map_map]
  refine List.sum_lt_sum _ _ (fun entry hm => ?_) ?_
  · simp only [Function.comp]
    split
    · exact Nat.le_refl _
    · next hsplit =>
      have hone := hb.2 entry hm
      simp only [Bool.or_eq_true, decide_eq_true_eq, not_or, Bool.not_eq_true] at hsplit
      have := lighter entry hm (by omega) hsplit.2
      dsimp only
      omega
  · obtain ⟨entry, hm, hn, hc⟩ := h
    refine ⟨entry, hm, ?_⟩
    have := lighter entry hm hn hc
    have hne : ¬ entry.2 = 1 := by omega
    simpa [hne, hc] using this

theorem excess_negate {value : Number} (h : value.isNegative = true) :
    value.negate.excess + 4 = value.excess := by
  have hfour : value.negate.excess = 4 := by
    cases value with
    | int i =>
      have hi : i < 0 := of_decide_eq_true h
      have hne : Number.int (-i) ≠ .int 0 := by
        intro hz
        have := Number.int.inj hz
        omega
      rw [Number.negate, Number.excess, if_neg hne, if_neg]
      simp only [Number.isNegative, decide_eq_true_eq]
      omega
    | float y =>
      rw [Number.negate, Number.excess, if_neg nofun, if_neg]
      rw [Number.isNegative, Binary64.isNegative_negate h]
      exact Bool.false_ne_true
  rw [hfour, Number.excess_of_isNegative h]

/-- A term loses the weight of its sign. -/
theorem weight_negatedTerm (hw : e.WellFormed) (h : negatedTerm? e = some e') :
    e'.weight + 4 = e.weight := by
  rcases negatedTerm?_eq_some h with ⟨value, hneg, rfl, rfl⟩ | ⟨terms, value, hneg, hm, rfl, rfl⟩
  · have := excess_negate hneg
    simp only [weight, Number.weight]
    omega
  · have hexcess := excess_negate hneg
    have hc : Bag.contains (.constant value) terms = true :=
      List.any_eq_true.mpr ⟨_, hm, decide_eq_true rfl⟩
    have hremoved := weightTerms_removeOne hw.canonical hc
    simp only [weight, Number.weight] at hremoved
    simp only [weight, weightTerms_insert, Number.weight]
    omega

theorem weightTerms_negativeTerms (hw : ∀ x ∈ Bag.keys terms, x.WellFormed) :
    weightTerms (negativeTerms terms) +
        4 * Bag.total (terms.filter fun entry => (negatedTerm? entry.1).isSome) =
      weightTerms (terms.filter fun entry => (negatedTerm? entry.1).isSome) := by
  simp only [negativeTerms_eq, weightTerms_ofEntries]
  induction terms with
  | nil => rfl
  | cons entry rest ih =>
    have hrest := ih fun x hx => hw x (List.mem_cons_of_mem _ hx)
    obtain ⟨term, count⟩ := entry
    cases hn : negatedTerm? term with
    | none =>
      rw [List.filterMap_cons_none (by simp [hn]), List.filter_cons_of_neg (by simp [hn])]
      exact hrest
    | some flipped =>
      have hterm := weight_negatedTerm (hw term List.mem_cons_self) hn
      have hcopies : count * term.weight = count * flipped.weight + count * 4 := by
        rw [← hterm, Nat.mul_add]
      rw [List.filterMap_cons_some (by simp [hn]; rfl), List.filter_cons_of_pos (by simp [hn]),
        weightTerms, weightTerms, Bag.total, hcopies]
      omega

/-- The terms of a difference lose the sign of one of them at least. -/
theorem weight_difference_le (hb : Bag.Canonical terms) (hw : ∀ x ∈ Bag.keys terms, x.WellFormed)
    (h : negativeTerms terms ≠ []) :
    weightTerms (positiveTerms terms) + weightTerms (negativeTerms terms) + 4 ≤
      weightTerms terms := by
  have hsplit := weightTerms_filter_add (fun entry => (negatedTerm? entry.1).isSome) terms
  have hnegative := weightTerms_negativeTerms hw
  have hpos : 0 < Bag.total (terms.filter fun entry => (negatedTerm? entry.1).isSome) := by
    refine total_pos hb ?_
    by_contra hnone
    refine h ?_
    have hempty : (terms.filterMap fun entry =>
        (negatedTerm? entry.1).map fun flipped => (flipped, entry.2)) = [] := by
      apply List.filterMap_eq_nil_iff.mpr
      intro entry hm
      simp only [not_exists, not_and] at hnone
      simpa using hnone entry hm
    rw [negativeTerms_eq, hempty]
    rfl
  have hpositive : positiveTerms terms =
      terms.filter fun entry => !(negatedTerm? entry.1).isSome := by
    simp [positiveTerms]
  rw [hpositive]
  omega

theorem weightTerms_summands (e : Expr) : weightTerms (summands e) ≤ e.weight := by
  have alone : weightTerms [(e, 1)] ≤ e.weight := by
    rw [weightTerms, weightTerms, Nat.one_mul, Nat.add_zero]
  cases e with
  | nary op terms =>
    cases op with
    | add =>
      simp only [summands, weight]
      exact Nat.le_add_left _ _
    | mul | bitAnd | bitOr | bitXor | and | or => exact alone
  | constant | symbol | unary | binary | conditional | call => exact alone

theorem weight_subtracted_lt {sum : Expr} (hw : sum.WellFormed)
    (h : negativeTerms (summands sum) ≠ []) :
    (Expr.nary .add (positiveTerms (summands sum))).weight +
        (Expr.nary .add (negativeTerms (summands sum))).weight < sum.weight + 1 := by
  obtain ⟨hb, hc⟩ := canonical_summands hw
  have hlt := weight_difference_le hb hc h
  have hsum := weightTerms_summands sum
  simp only [weight, SemigroupOp.weight]
  omega

theorem weight_cofactor (hw : e.WellFormed) (h : cofactor? inner factor e = some e') :
    e'.weight + factor.weight ≤ e.weight + inner.weight := by
  rcases cofactor?_eq_some h with ⟨rfl, rfl⟩ | ⟨terms, rfl, hc, rfl⟩
  · simp only [weight, weightTerms]
    omega
  · have hremoved := weightTerms_removeOne hw.canonical hc
    simp only [weight]
    omega

theorem weightTerms_cofactors (inner : SemigroupOp) (factor : Expr)
    (hw : ∀ x ∈ Bag.keys terms, x.WellFormed) :
    weightTerms (cofactors inner factor terms) +
        Bag.total (sharing inner factor terms) * factor.weight ≤
      weightTerms (sharing inner factor terms) +
        Bag.total (sharing inner factor terms) * inner.weight := by
  induction terms with
  | nil => simp [cofactors, sharing, weightTerms, Bag.total]
  | cons entry rest ih =>
    have hrest := ih fun x hx => hw x (List.mem_cons_of_mem _ hx)
    obtain ⟨term, count⟩ := entry
    cases hn : cofactor? inner factor term with
    | none =>
      rw [cofactors, sharing, List.filterMap_cons_none (by simp [hn]),
        List.filter_cons_of_neg (by simp [hn])]
      exact hrest
    | some cofactor =>
      have hterm := Nat.mul_le_mul_left count (weight_cofactor (hw term List.mem_cons_self) hn)
      simp only [Nat.mul_add] at hterm
      rw [cofactors, sharing, List.filterMap_cons_some (by simp [hn]; rfl),
        List.filter_cons_of_pos (by simp [hn]), ← cofactors, ← sharing, weightTerms, weightTerms,
        Bag.total, Nat.add_mul, Nat.add_mul]
      omega

theorem weight_of_innerOf? (h : innerOf? op = some inner) : op.weight ≤ 10 ∧ inner.weight ≤ 10 := by
  cases op <;> cases h <;> simp [SemigroupOp.weight]

/-- One copy of a heavy factor is saved by each sharing term but one. -/
theorem weight_factored_lt (hw : (Expr.nary op terms).WellFormed) (hi : innerOf? op = some inner)
    (hf : commonFactor? inner terms = some factor) (hheavy : 50 ≤ factor.weight) :
    (factored op inner factor terms).weight < (Expr.nary op terms).weight := by
  have htwo := two_le_total_sharing hw hf
  obtain ⟨hop, hinner⟩ := weight_of_innerOf? hi
  have hcofactors := weightTerms_cofactors inner factor fun x hx => hw.of_mem_children hx
  have hsplit := weightTerms_filter_add
    (fun entry => (cofactor? inner factor entry.1).isSome) terms
  rw [← sharing] at hsplit
  simp only [factored_eq, weight, weightTerms_insert, weight_pair, weightTerms_ofEntries]
  generalize Bag.total (sharing inner factor terms) = total at htwo hcofactors
  obtain ⟨more, rfl⟩ : ∃ more, total = more + 2 := ⟨total - 2, by omega⟩
  have hmore : more * 10 ≤ more * factor.weight := Nat.mul_le_mul_left _ (by omega)
  have hfew : more * inner.weight ≤ more * 10 := Nat.mul_le_mul_left _ hinner
  simp only [Nat.add_mul] at hcofactors
  omega

/-- The factor is heavy, as a term or as a factor of a term. -/
theorem heavy_factor (hheavy : ∀ x ∈ Bag.keys terms, x.Everywhere Heavy)
    (hf : commonFactor? inner terms = some factor) : 50 ≤ factor.weight := by
  obtain ⟨term, hm, hfactor⟩ := exists_mem_factors hf
  obtain ⟨hconstant, rfl | ⟨factors, rfl, hm'⟩⟩ := mem_factors hfactor
  · exact (everywhere_iff.mp (hheavy _ hm)).1 hconstant
  · exact (everywhere_iff.mp ((everywhere_iff.mp (hheavy _ hm)).2 factor hm')).1 hconstant

theorem weight_identity_lt (op : SemigroupOp) : op.identity.weight < op.weight := by
  cases op <;> decide

theorem weight_againstZero {lhs rhs : Expr} (h : AgainstZero x lhs rhs) :
    lhs.weight + rhs.weight = x.weight + 1 := by
  rcases h with ⟨rfl, rfl⟩ | ⟨rfl, rfl⟩
  · rfl
  · exact Nat.add_comm _ _

theorem weight_negatedComparison {op : BinaryOp} {lhs rhs : Expr}
    (h : negatedComparison? lhs rhs op = some e) : e.weight = (Expr.binary op lhs rhs).weight := by
  cases op with
  | eq | ne =>
    cases h
    rfl
  | lt | le =>
    cases h
    simp only [weight]
    omega
  | floorDiv | trueDiv | mod | shr | pow | rol | ror => cases h

theorem weight_operation_le (op : SemigroupOp) (terms : Bag) {value : Number}
    (h : absorbing? (.nary op terms) = some value) : 10 ≤ op.weight := by
  have hc := covers_of_absorbing h
  cases op with
  | add => simp [shortCircuit, Trigger.covers] at hc
  | mul | bitAnd | bitOr | bitXor | and | or => exact Nat.le_refl 10

theorem weight_foldNary_lt {value : Number} (hb : Bag.Canonical terms)
    (hne : constantEntries terms ≠ [])
    (hone : ∀ only count, constantEntries terms = [(only, count)] →
      1 < count ∨ only = .constant op.identity)
    (hab : absorbing? (.nary op terms) = none)
    (h : accumulateAll op op.identity terms = .ok value) :
    weightTerms (if value = op.identity then terms.filter fun entry => !entry.1.isConstant
      else Bag.insert (.constant value) (terms.filter fun entry => !entry.1.isConstant)) <
      weightTerms terms := by
  have hsplit := weightTerms_filter_add (fun entry => entry.1.isConstant) terms
  rw [← constantEntries] at hsplit
  split
  · obtain ⟨entry, hm⟩ := List.exists_mem_of_ne_nil _ hne
    have hpos := weightTerms_pos ⟨entry, hm, hb.2 entry (List.mem_filter.mp hm).1⟩
    omega
  · next hv =>
    have hlt := weight_folded_lt hb hne hone hab h hv
    simp only [weightTerms_insert, weight]
    omega

/-- Every rewrite of a default rule makes its node lighter. -/
theorem Rewrites.weight_lt (h : Rewrites width e e') (hw : e.WellFormed)
    (hheavy : ∀ c ∈ e.children, c.Everywhere Heavy) : e'.weight < e.weight := by
  cases h with
  | flatten h =>
    simp only [weight]
    exact Nat.add_lt_add_left (weight_flattened_lt hw.canonical h) _
  | idempotent hop h =>
    simp only [weight, weightTerms_ofList]
    exact Nat.add_lt_add_left (weightArgs_keys_lt hw.canonical h) _
  | involution h =>
    simp only [weight, weightTerms_ofList]
    exact Nat.add_lt_add_left (weightArgs_odd_lt hw.canonical h) _
  | @foldUnary op value result h =>
    have := weight_constant_le result
    simp only [weight_unary]
    omega
  | @foldBinary op lhs rhs result h =>
    have := weight_constant_le result
    simp only [weight_binary]
    omega
  | @selfCompare op x hop =>
    have := weight_constant_le (.ofBool (op = .eq || op = .le))
    simp only [weight_binary]
    omega
  | @shortCircuit op terms value h =>
    have := weight_constant_le value
    have := weight_operation_le op terms h
    simp only [weight_nary]
    omega
  | foldNary hne hone hab h =>
    simp only [weight]
    exact Nat.add_lt_add_left (weight_foldNary_lt hw.canonical hne hone hab h) _
  | @empty op =>
    have := weight_identity_lt op
    simp only [weight, weightTerms]
    omega
  | @single op child =>
    have := weight_identity_lt op
    simp only [weight, weightTerms]
    omega
  | constantCondition =>
    simp only [weight_conditional]
    split <;> omega
  | negatedCompare h =>
    rw [weight_negatedComparison h, weight_unary]
    omega
  | subtractRight hop h =>
    have hlt := weight_subtracted_lt (hw.of_mem_children List.mem_cons_self) h
    have hzero : (Expr.int 0).weight = 1 := rfl
    simp only [weight_binary]
    omega
  | @subtractLeft op sum hop h =>
    have hsum : sum ∈ (Expr.binary op (.int 0) sum).children :=
      List.mem_cons_of_mem _ List.mem_cons_self
    have hlt := weight_subtracted_lt (hw.of_mem_children hsum) h
    have hzero : (Expr.int 0).weight = 1 := rfl
    simp only [weight_binary]
    omega
  | equalsZero h =>
    have := weight_againstZero h
    simp only [logicalNot, weight]
    omega
  | differsFromZero h =>
    have := weight_againstZero h
    simp only [logicalNot, weight]
    omega
  | repetition hop h =>
    simp only [weight, weightTerms_ofEntries]
    refine Nat.add_lt_add_left (weight_repeated_lt hw.canonical (fun x hx => ?_) h) _
    exact (everywhere_iff.mp (hheavy x hx)).1
  | distribute hi hf => exact weight_factored_lt hw hi hf (heavy_factor hheavy hf)

end Symbolic.Rules
