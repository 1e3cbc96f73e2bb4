import Symbolic.Proofs.NaryValues

/-! The rewrites of comparisons, negations and conditionals keep their values. -/
namespace Symbolic

theorem truth_congr {p q : Prop} [Decidable p] [Decidable q] (h : p ↔ q) : truth p = truth q := by
  rw [truth, truth, if_congr h rfl rfl]

theorem truth_eq_zero_iff {p : Prop} [Decidable p] : truth p = 0 ↔ ¬ p := by
  simp only [truth]
  split <;> simp [*]

namespace BinaryOp

variable {op : BinaryOp} {width : Nat} {a b : Int}

/-- A difference compares with zero as its parts compare. -/
theorem result?_sub_zero (h : op.isComparison = true) :
    op.result? width (a - b) 0 = op.result? width a b := by
  cases op with
  | eq | ne | lt | le => exact congrArg some (truth_congr (by omega))
  | floorDiv | trueDiv | mod | shr | pow | rol | ror => cases h

theorem result?_zero_sub (h : op.isComparison = true) :
    op.result? width 0 (a - b) = op.result? width b a := by
  cases op with
  | eq | ne | lt | le => exact congrArg some (truth_congr (by omega))
  | floorDiv | trueDiv | mod | shr | pow | rol | ror => cases h

theorem result?_self (h : op.isComparison = true) :
    op.result? width a a = some (truth (op = .eq ∨ op = .le)) := by
  cases op with
  | eq | ne | lt | le => exact congrArg some (truth_congr (by simp))
  | floorDiv | trueDiv | mod | shr | pow | rol | ror => cases h

end BinaryOp

namespace Rules

open Symbolic.Expr

variable {reading : Reading} {place : Place} {e e' lhs rhs x : Expr} {op : BinaryOp} {terms : Bag}

theorem read_binary_eq_some_iff {v : Int} : (Expr.binary op lhs rhs).read reading place = some v ↔
    lhs.Defined reading .value ∧ rhs.Defined reading .value ∧
      op.result? reading.width (lhs.worth reading .value) (rhs.worth reading .value) = some v := by
  rw [Expr.read, Option.bind_eq_some_iff]
  constructor
  · rintro ⟨a, ha, hb⟩
    obtain ⟨b, hb, hv⟩ := Option.bind_eq_some_iff.mp hb
    rw [worth_of_read ha, worth_of_read hb]
    exact ⟨defined_of_read ha, defined_of_read hb, hv⟩
  · rintro ⟨ha, hb, hv⟩
    exact ⟨_, ha.read, Option.bind_eq_some_iff.mpr ⟨_, hb.read, hv⟩⟩

theorem keeps_selfCompare (hop : op.isComparison = true) :
    Keeps reading place (.binary op x x) (.constant (.ofBool (op = .eq || op = .le))) := by
  intro v hv
  obtain ⟨_, _, hresult⟩ := read_binary_eq_some_iff.mp hv
  rw [BinaryOp.result?_self hop] at hresult
  rw [← Bool.decide_or, ofBool_eq_int_truth]
  exact hresult

theorem keeps_negatedCompare (h : negatedComparison? lhs rhs op = some e) :
    Keeps reading place (.unary .not (.binary op lhs rhs)) e := by
  intro v hv
  rw [Expr.read, Option.map_eq_some_iff] at hv
  obtain ⟨c, hc, rfl⟩ := hv
  obtain ⟨hl, hr, hresult⟩ := read_binary_eq_some_iff.mp hc
  cases op with
  | eq =>
    cases h
    cases hresult
    refine read_binary_eq_some_iff.mpr ⟨hl, hr, congrArg some (truth_congr ?_)⟩
    exact truth_eq_zero_iff.symm
  | ne =>
    cases h
    cases hresult
    refine read_binary_eq_some_iff.mpr ⟨hl, hr, congrArg some (truth_congr ?_)⟩
    simp only [truth_eq_zero_iff, ne_eq, not_not]
  | lt | le =>
    cases h
    cases hresult
    refine read_binary_eq_some_iff.mpr ⟨hr, hl, congrArg some (truth_congr ?_)⟩
    simp only [truth_eq_zero_iff]
    omega
  | floorDiv | trueDiv | mod | shr | pow | rol | ror => cases h

/-- What a comparison with zero tells is the truth of the operand. -/
theorem read_of_againstZero (h : AgainstZero x lhs rhs) (hl : lhs.Defined reading .value)
    (hr : rhs.Defined reading .value) : ∃ v, x.read reading .truth = some v ∧
      (lhs.worth reading .value = rhs.worth reading .value ↔ v = 0) := by
  rcases h with ⟨rfl, rfl⟩ | ⟨rfl, rfl⟩
  · exact ⟨_, read_anywhere hl.read .truth, Iff.rfl⟩
  · exact ⟨_, read_anywhere hr.read .truth, eq_comm⟩

theorem keeps_equalsZero (h : AgainstZero x lhs rhs) :
    Keeps reading place (.binary .eq lhs rhs) (.logicalNot x) := by
  intro v hv
  obtain ⟨hl, hr, hresult⟩ := read_binary_eq_some_iff.mp hv
  obtain ⟨a, hx, hzero⟩ := read_of_againstZero h hl hr
  cases hresult
  simp only [logicalNot, Expr.read, UnaryOp.place, hx]
  exact congrArg some (truth_congr hzero.symm)

theorem keeps_differsFromZero (h : AgainstZero x lhs rhs) :
    Keeps reading place (.binary .ne lhs rhs) (.logicalNot (.logicalNot x)) := by
  intro v hv
  obtain ⟨hl, hr, hresult⟩ := read_binary_eq_some_iff.mp hv
  obtain ⟨a, hx, hzero⟩ := read_of_againstZero h hl hr
  cases hresult
  simp only [logicalNot, Expr.read, UnaryOp.place, hx]
  refine congrArg some (truth_congr ?_)
  simp only [UnaryOp.apply, truth_eq_zero_iff]
  exact not_congr hzero.symm

theorem keeps_constantCondition {test : Number} {whenTrue whenFalse : Expr} :
    Keeps reading place (.conditional (.constant test) whenTrue whenFalse)
      (if test.isTruthy then whenTrue else whenFalse) := by
  intro v hv
  simp only [Expr.read, Option.bind_eq_some_iff] at hv
  obtain ⟨c, hc, hv⟩ := hv
  obtain ⟨t, rfl⟩ := exists_int_of_defined (defined_of_read hc)
  cases hc
  simp only [Number.isTruthy_int]
  have htaken := (Reading.choose_eq_some_iff.mp hv).2
  split at htaken
  · next hne => rwa [if_pos (decide_eq_true hne)]
  · next hzero => rwa [if_neg (by simpa using hzero)]

theorem keeps_foldUnary {op : UnaryOp} {value result : Number} (h : op.eval value = .ok result) :
    Keeps reading place (.unary op (.constant value)) (.constant result) := by
  intro v hv
  simp only [Expr.read, Option.map_eq_some_iff] at hv
  obtain ⟨a, ha, rfl⟩ := hv
  obtain ⟨a, rfl⟩ := exists_int_of_defined (defined_of_read ha)
  cases ha
  cases (op.eval_int a).symm.trans h
  rfl

theorem keeps_foldBinary {a b result : Number} (h : op.eval a b reading.width = .ok result) :
    Keeps reading place (.binary op (.constant a) (.constant b)) (.constant result) := by
  intro v hv
  obtain ⟨ha, hb, hresult⟩ := read_binary_eq_some_iff.mp hv
  obtain ⟨a, rfl⟩ := exists_int_of_defined ha
  obtain ⟨b, rfl⟩ := exists_int_of_defined hb
  rw [(BinaryOp.foldsTo_of_result? hresult).eq_of_ok h]
  rfl

theorem defined_negatedTerm (hw : e.WellFormed) (h : negatedTerm? e = some e')
    (hd : e.Defined reading .value) : e'.Defined reading .value ∧
      e'.worth reading .value = -e.worth reading .value := by
  rcases negatedTerm?_eq_some h with ⟨value, _, rfl, rfl⟩ | ⟨terms, value, _, hm, rfl, rfl⟩
  · obtain ⟨v, rfl⟩ := exists_int_of_defined hd
    exact ⟨rfl, rfl⟩
  · have hkeys : ∀ x ∈ Bag.keys terms, x.Defined reading SemigroupOp.mul.place :=
      (defined_nary_iff.mp hd).2
    obtain ⟨v, rfl⟩ := exists_int_of_defined (hkeys _ (List.mem_map_of_mem hm))
    have hcanonical : Bag.Canonical terms := hw.canonical
    have hcontains : Bag.contains (.constant (.int v)) terms = true :=
      List.any_eq_true.mpr ⟨_, hm, decide_eq_true rfl⟩
    have hcanonical' := Bag.canonical_removeOne (.constant (.int v)) hcanonical
    have hperm := Bag.elements_removeOne hcanonical.2 hcontains
    have hrest := Bag.forall_elements_of_subset
      (Bag.keys_removeOne_subset (.constant (.int v)) terms) hkeys
    have hvalue := read_nary_of_perm (Reading.admits_of_isLogical_eq_false rfl .value)
      (Bag.canonical_insert _ hcanonical') (Bag.elements_insert _ _)
      (List.forall_mem_cons.mpr ⟨defined_int (-v), hrest⟩)
    refine ⟨defined_of_read hvalue, ?_⟩
    rw [Number.negate, worth_of_read hvalue, worth_nary hd,
      ← SemigroupOp.total_perm (hperm.map (worth reading SemigroupOp.mul.place))]
    exact Int.neg_mul v _

theorem worth_summands (hd : e.Defined reading .value) :
    (∀ x ∈ Bag.keys (summands e), x.Defined reading .value) ∧
      SemigroupOp.total .add ((Bag.elements (summands e)).map (worth reading .value)) =
        e.worth reading .value := by
  have alone : (∀ x ∈ Bag.keys [(e, 1)], x.Defined reading .value) ∧
      SemigroupOp.total .add ((Bag.elements [(e, 1)]).map (worth reading .value)) =
        e.worth reading .value := by
    refine ⟨?_, SemigroupOp.seen_of_isLogical_eq_false rfl _⟩
    intro x hx
    rwa [List.mem_singleton.mp hx]
  cases e with
  | nary op terms =>
    cases op with
    | add => exact ⟨(defined_nary_iff.mp hd).2, (worth_nary hd).symm⟩
    | mul | bitAnd | bitOr | bitXor | and | or => exact alone
  | constant | symbol | unary | binary | conditional | call => exact alone

/-- The negated terms come to the opposite of what the negative ones come to. -/
theorem total_negatedTerms (f : Expr → Int)
    (h : ∀ term ∈ Bag.keys terms, ∀ flipped, negatedTerm? term = some flipped →
      f flipped = -f term) :
    SemigroupOp.total .add ((Bag.elements (terms.filterMap fun entry =>
        (negatedTerm? entry.1).map fun flipped => (flipped, entry.2))).map f) =
      -SemigroupOp.total .add ((Bag.elements (terms.filter fun entry =>
        !(negatedTerm? entry.1).isNone)).map f) := by
  induction terms with
  | nil => rfl
  | cons entry rest ih =>
    have hrest := ih fun term hm => h term (List.mem_cons_of_mem _ hm)
    simp only [List.filterMap_cons, List.filter_cons]
    cases hc : negatedTerm? entry.1 with
    | none => simpa [hc] using hrest
    | some flipped =>
      have hterm := h entry.1 List.mem_cons_self flipped hc
      simp only [Option.map_some, Option.isNone_some, Bool.not_false, if_true, Bag.elements_cons,
        List.map_append, List.map_replicate, SemigroupOp.total_append, hrest, hterm,
        SemigroupOp.total_replicate_add, SemigroupOp.apply]
      ring

theorem wellFormed_summands (hw : e.WellFormed) : (Expr.nary .add (summands e)).WellFormed :=
  wellFormed_of_legal (everywhere_legal_summands (wellFormed_iff_legal.mp hw) trivial)

theorem admits_add (reading : Reading) : reading.admits .value .add = true :=
  Reading.admits_of_isLogical_eq_false rfl .value

theorem read_positiveTerms (hb : Bag.Canonical terms)
    (hkeys : ∀ x ∈ Bag.keys terms, x.Defined reading .value) :
    (Expr.nary .add (positiveTerms terms)).read reading .value = some (SemigroupOp.total .add
      ((Bag.elements (terms.filter fun entry => (negatedTerm? entry.1).isNone)).map
        (worth reading .value))) :=
  read_nary_of_perm (admits_add reading) (Bag.canonical_filter _ hb) (List.Perm.refl _)
    (Bag.forall_elements_of_subset (Bag.keys_filter_subset _ _) hkeys)

theorem read_negativeTerms (hw : (Expr.nary .add terms).WellFormed)
    (hkeys : ∀ x ∈ Bag.keys terms, x.Defined reading .value) :
    (Expr.nary .add (negativeTerms terms)).read reading .value = some (-SemigroupOp.total .add
      ((Bag.elements (terms.filter fun entry => !(negatedTerm? entry.1).isNone)).map
        (worth reading .value))) := by
  have hnegated {term flipped : Expr} (hm : term ∈ Bag.keys terms)
      (h : negatedTerm? term = some flipped) :=
    defined_negatedTerm (hw.of_mem_children hm) h (hkeys term hm)
  have hdefined : ∀ x ∈ Bag.elements (terms.filterMap fun entry =>
      (negatedTerm? entry.1).map fun flipped => (flipped, entry.2)), x.Defined reading .value := by
    intro x hx
    obtain ⟨entry, hm, rfl⟩ := List.mem_map.mp (Bag.mem_keys_of_mem_elements hx)
    obtain ⟨original, ho, hmap⟩ := List.mem_filterMap.mp hm
    obtain ⟨flipped, hf, rfl⟩ := Option.map_eq_some_iff.mp hmap
    exact (hnegated (List.mem_map_of_mem ho) hf).1
  rw [← total_negatedTerms (worth reading .value) fun _ hm _ h => (hnegated hm h).2]
  exact read_nary_of_perm (admits_add reading) (Bag.canonical_ofEntries _)
    (Bag.elements_ofEntries _)
    hdefined

/-- An expression is the difference of its positive terms and its negated negative ones. -/
theorem exists_difference (hw : e.WellFormed) (hd : e.Defined reading .value) :
    ∃ p n, (Expr.nary .add (positiveTerms (summands e))).read reading .value = some p ∧
      (Expr.nary .add (negativeTerms (summands e))).read reading .value = some n ∧
      e.worth reading .value = p - n := by
  have hsum := wellFormed_summands hw
  obtain ⟨hkeys, htotal⟩ := worth_summands hd
  refine ⟨_, _, read_positiveTerms hsum.canonical hkeys, read_negativeTerms hsum hkeys, ?_⟩
  rw [← htotal, Int.sub_neg]
  exact total_split .add _ (fun entry => (negatedTerm? entry.1).isNone) _

theorem keeps_subtractRight (hop : op.isComparison = true) (hw : e.WellFormed) :
    Keeps reading place (.binary op e (.int 0)) (.binary op
      (.nary .add (positiveTerms (summands e))) (.nary .add (negativeTerms (summands e)))) := by
  intro v hv
  obtain ⟨hd, _, hresult⟩ := read_binary_eq_some_iff.mp hv
  obtain ⟨p, n, hp, hn, hdifference⟩ := exists_difference hw hd
  have hzero : (Expr.int 0).worth reading .value = 0 := rfl
  rw [hdifference, hzero, BinaryOp.result?_sub_zero hop] at hresult
  refine read_binary_eq_some_iff.mpr ⟨defined_of_read hp, defined_of_read hn, ?_⟩
  rw [worth_of_read hp, worth_of_read hn]
  exact hresult

theorem keeps_subtractLeft (hop : op.isComparison = true) (hw : e.WellFormed) :
    Keeps reading place (.binary op (.int 0) e) (.binary op
      (.nary .add (negativeTerms (summands e))) (.nary .add (positiveTerms (summands e)))) := by
  intro v hv
  obtain ⟨_, hd, hresult⟩ := read_binary_eq_some_iff.mp hv
  obtain ⟨p, n, hp, hn, hdifference⟩ := exists_difference hw hd
  have hzero : (Expr.int 0).worth reading .value = 0 := rfl
  rw [hdifference, hzero, BinaryOp.result?_zero_sub hop] at hresult
  refine read_binary_eq_some_iff.mpr ⟨defined_of_read hn, defined_of_read hp, ?_⟩
  rw [worth_of_read hp, worth_of_read hn]
  exact hresult

end Rules
end Symbolic
