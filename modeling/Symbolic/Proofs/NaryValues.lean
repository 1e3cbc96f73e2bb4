import Symbolic.Proofs.Exact
import Symbolic.Proofs.FoldedWeight
import Symbolic.Proofs.Legal

/-! The rewrites of semigroup operations keep the total of the operands. -/
namespace Symbolic

namespace Rules

/-- The products of multiplicities that flattening a node forms fit a machine word. -/
def MultiplicitiesFit : Expr → Prop
  | .nary op terms => ∀ inner count, (.nary op inner, count) ∈ terms →
      ∀ entry ∈ inner, entry.2 * count ≤ maxMultiplicity
  | _ => True

theorem scaledCount_one (count : Nat) : scaledCount 1 count = 1 * count := by
  simp only [scaledCount]
  split <;> omega

end Rules

namespace Bag

theorem elements_scaled {count : Nat} {bag : Bag}
    (hexact : ∀ entry ∈ bag, Rules.scaledCount entry.2 count = entry.2 * count) :
    elements (bag.map fun entry => (entry.1, Rules.scaledCount entry.2 count)) =
      (elements bag).flatMap (List.replicate count) := by
  induction bag with
  | nil => rfl
  | cons entry rest ih =>
    obtain ⟨hentry, hrest⟩ := List.forall_mem_cons.mp hexact
    rw [List.map_cons, elements_cons, elements_cons, List.flatMap_append, ih hrest,
      List.flatMap_replicate, List.flatten_replicate_replicate, hentry]

end Bag

namespace Rules

open Symbolic.Expr

variable {reading : Reading} {place : Place} {op inner : SemigroupOp} {terms : Bag}
  {e x factor : Expr}

/-- The copies of each operand may be taken together first. -/
theorem total_elements (op : SemigroupOp) (f : Expr → Int) (bag : Bag) :
    op.total ((Bag.elements bag).map f) =
      op.total (bag.map fun entry => op.total (List.replicate entry.2 (f entry.1))) := by
  induction bag with
  | nil => rfl
  | cons entry rest ih =>
    rw [Bag.elements_cons, List.map_append, SemigroupOp.total_append, ih, List.map_replicate]
    rfl

/-- The operands may be taken in two parts. -/
theorem total_split (op : SemigroupOp) (f : Expr → Int) (p : Expr × Nat → Bool) (bag : Bag) :
    op.total ((Bag.elements bag).map f) =
      op.apply (op.total ((Bag.elements (bag.filter p)).map f))
        (op.total ((Bag.elements (bag.filter fun entry => !p entry)).map f)) := by
  have hsplit := (Bag.elements_filter_append p bag).map f
  rw [← SemigroupOp.total_perm hsplit, List.map_append, SemigroupOp.total_append]

/-- A nested operation stands for as many copies of its operands. -/
theorem total_scaled (hd : (Expr.nary op terms).Defined reading op.place) {count : Nat}
    (hexact : ∀ entry ∈ terms, scaledCount entry.2 count = entry.2 * count) :
    op.total ((Bag.elements (terms.map fun entry =>
        (entry.1, scaledCount entry.2 count))).map (worth reading op.place)) =
      op.total (List.replicate count ((Expr.nary op terms).worth reading op.place)) := by
  rw [Bag.elements_scaled hexact, worth_nary hd, ← SemigroupOp.total_flatMap_replicate]
  simp [List.map_flatMap, List.flatMap_map]

theorem total_nestedTerms (hd : ∀ x ∈ Bag.keys terms, x.Defined reading op.place)
    (hexact : ∀ inner count, (.nary op inner, count) ∈ terms →
      ∀ entry ∈ inner, scaledCount entry.2 count = entry.2 * count) :
    op.total ((Bag.elements (nestedTerms op terms)).map (worth reading op.place)) =
      op.total ((Bag.elements (terms.filter fun entry => isNary op entry.1)).map
        (worth reading op.place)) := by
  induction terms with
  | nil => rfl
  | cons entry rest ih =>
    have hdrest : ∀ x ∈ Bag.keys rest, x.Defined reading op.place := by
      intro x hx
      exact hd x (List.mem_cons_of_mem _ hx)
    have hrest := ih hdrest fun inner count hm => hexact inner count (List.mem_cons_of_mem _ hm)
    obtain ⟨child, count⟩ := entry
    by_cases hn : isNary op child = true
    · obtain ⟨inner, rfl⟩ := isNary_iff.mp hn
      have hscaled := total_scaled (hd _ List.mem_cons_self) (hexact inner count List.mem_cons_self)
      rw [nestedTerms_cons_nary, List.filter_cons, if_pos hn, Bag.elements_append, List.map_append,
        SemigroupOp.total_append, hrest, hscaled, Bag.elements_cons, List.map_append,
        SemigroupOp.total_append, List.map_replicate]
    · rw [nestedTerms_cons_other (by simpa using hn), List.filter_cons, if_neg hn]
      exact hrest

theorem keeps_flattened (hb : Bag.Canonical terms)
    (hexact : ∀ inner count, (.nary op inner, count) ∈ terms →
      ∀ entry ∈ inner, scaledCount entry.2 count = entry.2 * count) :
    Keeps reading place (.nary op terms) (.nary op
      (Bag.merge (terms.filter fun entry => !isNary op entry.1) (nestedTerms op terms))) := by
  have hcanonical := Bag.canonical_filter (fun entry => !isNary op entry.1) hb
  apply keeps_nary_of_perm (Bag.canonical_merge _ hcanonical) (Bag.elements_merge _ _)
  intro hkeys
  constructor
  · intro x hx
    rcases List.mem_append.mp hx with hx | hx
    · have hx := Bag.mem_keys_of_mem_elements hx
      obtain ⟨inner, count, hm, hx⟩ := exists_of_mem_keys_nestedTerms hx
      have hinner := hkeys _ (List.mem_map_of_mem hm)
      exact (defined_nary_iff.mp hinner).2 x hx
    · exact Bag.forall_elements_of_subset (Bag.keys_filter_subset _ terms) hkeys x hx
  · rw [List.map_append, SemigroupOp.total_append, total_nestedTerms hkeys hexact]
    exact (total_split op _ _ terms).symm

theorem keeps_single (hop : op.isLogical = false) : Keeps reading place (.nary op [(x, 1)]) x := by
  apply keeps_nary
  intro _ hkeys
  have hvalue : op.place = .value := by simp [SemigroupOp.place, hop]
  have hx : x.read reading op.place = some (x.worth reading op.place) :=
    (hkeys x List.mem_cons_self).read
  have htotal : op.total [x.worth reading op.place] = x.worth reading op.place :=
    SemigroupOp.seen_of_isLogical_eq_false hop _
  rw [hvalue] at hx
  refine (read_anywhere hx place).trans (congrArg some ?_)
  rw [← hvalue]
  exact htotal.symm

/-- Where `&&` and `||` have a value only where truth counts, their single operand may stand for
them, although it may be no truth value. -/
theorem accords_single (hs : reading.sorted = true) : Accords reading (.nary op [(x, 1)]) x := by
  cases hop : op.isLogical with
  | false => exact accords_of_keeps fun place => keeps_single hop
  | true =>
    intro place v hv
    obtain ⟨ha, hkeys, rfl⟩ := read_nary_eq_some_iff.mp hv
    obtain rfl : place = .truth := by simpa [Reading.admits, hs, hop] using ha
    have htruth : op.place = .truth := by simp [SemigroupOp.place, hop]
    rw [htruth] at hkeys
    refine ⟨_, (hkeys x List.mem_cons_self).read, ?_⟩
    rw [htruth]
    exact op.seen_eq_zero_iff.symm

theorem keeps_empty : Keeps reading place (.nary op []) (.constant op.identity) := by
  apply keeps_nary
  intro _ _
  rw [SemigroupOp.identity_eq]
  rfl

theorem keeps_idempotent (hop : op = .bitAnd ∨ op = .bitOr ∨ op = .and ∨ op = .or)
    (hb : Bag.Canonical terms) :
    Keeps reading place (.nary op terms) (.nary op (Bag.ofList (Bag.keys terms))) := by
  apply keeps_nary_of_perm (Bag.canonical_ofList _) (Bag.elements_ofList _)
  intro hkeys
  refine ⟨hkeys, ?_⟩
  rw [total_elements, Bag.keys, List.map_map]
  apply SemigroupOp.total_congr
  intro entry hm
  rw [SemigroupOp.seen_total, SemigroupOp.total_replicate_of_idempotent hop (hb.2 entry hm)]
  rfl

theorem keeps_involution :
    Keeps reading place (.nary .bitXor terms) (.nary .bitXor
      (Bag.ofList (Bag.keys (terms.filter fun entry => entry.2 % 2 = 1)))) := by
  apply keeps_nary_of_perm (Bag.canonical_ofList _) (Bag.elements_ofList _)
  intro hkeys
  constructor
  · intro x hx
    exact hkeys x (Bag.keys_filter_subset _ _ hx)
  · rw [total_elements, Bag.keys, List.map_map, SemigroupOp.total_filter]
    simp only [SemigroupOp.total_replicate_bitXor, decide_eq_true_eq]
    rfl

theorem read_grouped (hop : op = .add ∨ op = .mul) (hx : x.Defined reading op.place) (n : Nat) :
    (grouped op x n).read reading place =
      some (op.total (List.replicate n (x.worth reading op.place))) := by
  rcases hop with rfl | rfl
  · rw [SemigroupOp.total_replicate_add]
    exact read_pair (Reading.admits_of_isLogical_eq_false rfl _) hx (defined_int n)
  · have hbase : x.read reading .value = some (x.worth reading .value) := hx.read
    have hnonneg : ¬ (n : Int) < 0 := by omega
    rw [SemigroupOp.total_replicate_mul]
    simp only [grouped, pow, Expr.read, hbase, read_int]
    simp [BinaryOp.result?, hnonneg, SemigroupOp.place, SemigroupOp.isLogical]

theorem keeps_repetition (hop : op = .add ∨ op = .mul) :
    Keeps reading place (.nary op terms) (.nary op (Bag.ofEntries (terms.map fun entry =>
      if entry.2 = 1 || entry.1.isConstant then entry else (grouped op entry.1 entry.2, 1)))) := by
  apply keeps_nary_of_perm (Bag.canonical_ofEntries _) (Bag.elements_ofEntries _)
  intro hkeys
  have hgrouped : ∀ entry ∈ terms, (grouped op entry.1 entry.2).read reading op.place =
      some (op.total (List.replicate entry.2 (entry.1.worth reading op.place))) := by
    intro entry hm
    exact read_grouped hop (hkeys _ (List.mem_map_of_mem hm)) entry.2
  constructor
  · intro x hx
    obtain ⟨image, hi, rfl⟩ := List.mem_map.mp (Bag.mem_keys_of_mem_elements hx)
    obtain ⟨entry, hm, rfl⟩ := List.mem_map.mp hi
    split
    · exact hkeys _ (List.mem_map_of_mem hm)
    · exact defined_of_read (hgrouped entry hm)
  · rw [total_elements, total_elements, List.map_map]
    apply congrArg op.total
    apply List.map_congr_left
    intro entry hm
    simp only [Function.comp_apply]
    split
    · rfl
    · rw [worth_of_read (hgrouped entry hm)]
      exact op.seen_total _

theorem exists_int_of_defined {value : Number} (h : (Expr.constant value).Defined reading place) :
    ∃ v, value = .int v := by
  cases value with
  | int v => exact ⟨v, rfl⟩
  | float x => cases h

theorem keeps_shortCircuit (hb : Bag.Canonical terms) {value : Number}
    (h : absorbing? (.nary op terms) = some value) :
    Keeps reading place (.nary op terms) (.constant value) := by
  apply keeps_nary
  intro _ hkeys
  obtain ⟨constant, hkey, habsorbed⟩ := exists_of_absorbing? h
  obtain ⟨z, rfl⟩ := exists_int_of_defined (hkeys _ hkey)
  obtain ⟨v, rfl, hz⟩ := SemigroupOp.absorbed?_int_eq_some habsorbed
  have hoccurs : z ∈ (Bag.elements terms).map (worth reading op.place) :=
    List.mem_map.mpr ⟨_, (Bag.mem_elements_iff_mem_keys hb).mpr hkey, rfl⟩
  exact congrArg some (SemigroupOp.total_of_absorbing hz hoccurs).symm

/-- Folding gives the total of all constants. -/
theorem foldsTo_accumulateAll {acc : Int} (hacc : op.seen acc = acc)
    (hpos : ∀ entry ∈ terms, 1 ≤ entry.2) (hd : ∀ x ∈ Bag.keys terms, x.Defined reading op.place) :
    FoldsTo (accumulateAll op (.int acc) terms) (op.apply acc (op.total
      ((Bag.elements (constantEntries terms)).map (worth reading op.place)))) := by
  induction terms generalizing acc with
  | nil => exact Or.inl (congrArg (fun v => Except.ok (Number.int v)) hacc.symm)
  | cons entry rest ih =>
    have hcounts : ∀ entry ∈ rest, 1 ≤ entry.2 := by
      intro x hx
      exact hpos x (List.mem_cons_of_mem _ hx)
    have hdefined : ∀ x ∈ Bag.keys rest, x.Defined reading op.place := by
      intro x hx
      exact hd x (List.mem_cons_of_mem _ hx)
    obtain ⟨e, count⟩ := entry
    cases hc : e.isConstant with
    | true =>
      obtain ⟨value, rfl⟩ := isConstant_iff.mp hc
      obtain ⟨v, rfl⟩ := exists_int_of_defined (hd _ List.mem_cons_self)
      have hlater := ih (op.seen_apply acc (op.total (List.replicate count v))) hcounts hdefined
      rw [constantEntries_cons_constant, Bag.elements_cons, List.map_append,
        SemigroupOp.total_append, List.map_replicate, ← SemigroupOp.apply_assoc]
      simp only [accumulateAll]
      have hcopies : FoldsTo (op.accumulate (.int acc) (.int v) count) _ :=
        SemigroupOp.foldsTo_accumulate (hpos _ List.mem_cons_self)
      rcases hcopies with hnext | hlarge
      · rw [hnext]
        exact hlater
      · rw [hlarge]
        exact Or.inr rfl
    | false =>
      rw [accumulateAll_cons_other hc, constantEntries_cons_other hc]
      exact ih hacc hcounts hdefined

theorem keeps_folded (hb : Bag.Canonical terms) {value : Number}
    (h : accumulateAll op op.identity terms = .ok value) :
    Keeps reading place (.nary op terms) (.nary op
      (if value = op.identity then terms.filter fun entry => !entry.1.isConstant
      else Bag.insert (.constant value) (terms.filter fun entry => !entry.1.isConstant))) := by
  apply keeps_nary
  intro ha hkeys
  have hrest := Bag.forall_elements_of_subset
    (Bag.keys_filter_subset (fun entry => !entry.1.isConstant) terms) hkeys
  have hcanonical := Bag.canonical_filter (fun entry => !entry.1.isConstant) hb
  rw [SemigroupOp.identity_eq] at h ⊢
  obtain rfl := (foldsTo_accumulateAll op.seen_neutral hb.2 hkeys).eq_of_ok h
  rw [SemigroupOp.neutral_apply, SemigroupOp.seen_total,
    total_split op _ (fun entry => entry.1.isConstant) terms]
  by_cases hneutral : op.total
    ((Bag.elements (constantEntries terms)).map (worth reading op.place)) =
      op.neutral
  · have hvalue := read_nary_of_perm ha hcanonical (List.Perm.refl _) hrest
    rw [if_pos (congrArg Number.int hneutral), hvalue, ← constantEntries, hneutral,
      SemigroupOp.neutral_apply, SemigroupOp.seen_total]
  · rw [if_neg fun hint => hneutral (Number.int.inj hint),
      read_nary_of_perm ha (Bag.canonical_insert _ hcanonical) (Bag.elements_insert _ _)
        (List.forall_mem_cons.mpr ⟨defined_int _, hrest⟩)]
    rfl

theorem isLogical_of_innerOf? (h : innerOf? op = some inner) : inner.isLogical = op.isLogical := by
  cases op <;> cases h <;> rfl

theorem place_of_innerOf? (h : innerOf? op = some inner) : inner.place = op.place := by
  rw [SemigroupOp.place, SemigroupOp.place, isLogical_of_innerOf? h]

theorem defined_factor (hi : innerOf? op = some inner) (hd : e.Defined reading op.place)
    (hf : factor ∈ factors inner e) : factor.Defined reading op.place := by
  rcases (mem_factors hf).2 with rfl | ⟨factors, rfl, hm⟩
  · exact hd
  · rw [← place_of_innerOf? hi]
    exact (defined_nary_iff.mp hd).2 factor hm

/-- A term is its factor applied to its cofactor, as far as the outer operator sees it. -/
theorem defined_cofactor (hi : innerOf? op = some inner) (hw : e.WellFormed) {cofactor : Expr}
    (h : cofactor? inner factor e = some cofactor) (hd : e.Defined reading op.place) :
    cofactor.Defined reading op.place ∧
      op.seen (inner.apply (factor.worth reading op.place) (cofactor.worth reading op.place)) =
        op.seen (e.worth reading op.place) := by
  have ha : reading.admits inner.place inner = true := Reading.admits_operand rfl
  rw [← place_of_innerOf? hi] at hd ⊢
  rcases cofactor?_eq_some h with ⟨rfl, rfl⟩ | ⟨terms, rfl, hcontains, rfl⟩
  · have hone := read_nary_of_perm ha Bag.canonical_nil (List.Perm.refl _) nofun
    refine ⟨defined_of_read hone, ?_⟩
    rw [worth_of_read hone]
    exact SemigroupOp.seen_seen_of_isLogical (isLogical_of_innerOf? hi) _
  · have hkeys := (defined_nary_iff.mp hd).2
    have hcanonical : Bag.Canonical terms := hw.canonical
    have hperm := Bag.elements_removeOne hcanonical.2 hcontains
    have hrest := Bag.forall_elements_of_subset (Bag.keys_removeOne_subset factor terms) hkeys
    have hvalue := read_nary_of_perm ha (Bag.canonical_removeOne factor hcanonical)
      (List.Perm.refl _) hrest
    refine ⟨defined_of_read hvalue, ?_⟩
    rw [worth_of_read hvalue, worth_nary hd,
      ← SemigroupOp.total_perm (hperm.map (worth reading inner.place))]
    rfl

theorem total_cofactors (f g : Expr → Int)
    (h : ∀ term ∈ Bag.keys terms, ∀ cofactor, cofactor? inner factor term = some cofactor →
      op.seen (f cofactor) = op.seen (g term)) :
    op.total ((Bag.elements (cofactors inner factor terms)).map f) =
      op.total ((Bag.elements (sharing inner factor terms)).map g) := by
  induction terms with
  | nil => rfl
  | cons entry rest ih =>
    have hrest := ih fun term hm => h term (List.mem_cons_of_mem _ hm)
    rw [cofactors, sharing] at hrest ⊢
    cases hc : cofactor? inner factor entry.1 with
    | none =>
      simp only [List.filterMap_cons, List.filter_cons]
      simpa [hc] using hrest
    | some cofactor =>
      have hterm :=
        SemigroupOp.total_replicate_congr (h entry.1 List.mem_cons_self cofactor hc) entry.2
      simp only [List.filterMap_cons, List.filter_cons]
      simp only [hc, Option.map_some, Option.isSome_some, if_true, Bag.elements_cons,
        List.map_append, List.map_replicate, SemigroupOp.total_append, hrest, hterm]

/-- The factor applied to its cofactors stands for the total of the terms that share it. -/
theorem read_product (hi : innerOf? op = some inner) (hw : (Expr.nary op terms).WellFormed)
    (hkeys : ∀ x ∈ Bag.keys terms, x.Defined reading op.place)
    (hfactor : factor.Defined reading op.place) :
    (pair inner factor (.nary op (Bag.ofEntries (cofactors inner factor terms)))).read
        reading op.place =
      some (op.total ((Bag.elements (sharing inner factor terms)).map
        (worth reading op.place))) := by
  have hcofactor {term cofactor : Expr} (hm : term ∈ Bag.keys terms)
      (hc : cofactor? inner factor term = some cofactor) :=
    defined_cofactor hi (hw.of_mem_children hm) hc (hkeys term hm)
  have hcofactors : ∀ x ∈ Bag.elements (cofactors inner factor terms),
      x.Defined reading op.place := by
    intro x hx
    obtain ⟨entry, hm, rfl⟩ := List.mem_map.mp (Bag.mem_keys_of_mem_elements hx)
    obtain ⟨original, ho, hmap⟩ := List.mem_filterMap.mp hm
    obtain ⟨cofactor, hc, rfl⟩ := Option.map_eq_some_iff.mp hmap
    exact (hcofactor (List.mem_map_of_mem ho) hc).1
  have hsum := read_nary_of_perm (Reading.admits_operand rfl)
    (Bag.canonical_ofEntries (cofactors inner factor terms)) (Bag.elements_ofEntries _) hcofactors
  have hshared := total_cofactors _ _ fun _ hm _ hc => (hcofactor hm hc).2
  rw [← place_of_innerOf? hi] at hfactor hsum hshared ⊢
  rw [read_pair (Reading.admits_operand rfl) hfactor (defined_of_read hsum), worth_of_read hsum,
    SemigroupOp.inner_apply_total hi, List.map_map]
  exact congrArg some hshared

theorem keeps_factored (hi : innerOf? op = some inner) (hw : (Expr.nary op terms).WellFormed)
    {term : Expr} (hterm : term ∈ Bag.keys terms) (hf : factor ∈ factors inner term) :
    Keeps reading place (.nary op terms) (factored op inner factor terms) := by
  have hcanonical := Bag.canonical_filter
    (fun entry => !(cofactor? inner factor entry.1).isSome) hw.canonical
  simp only [factored_eq]
  apply keeps_nary_of_perm (Bag.canonical_insert _ hcanonical) (Bag.elements_insert _ _)
  intro hkeys
  have hproduct := read_product hi hw hkeys (defined_factor hi (hkeys term hterm) hf)
  constructor
  · exact List.forall_mem_cons.mpr ⟨defined_of_read hproduct,
      Bag.forall_elements_of_subset (Bag.keys_filter_subset _ terms) hkeys⟩
  · rw [List.map_cons, SemigroupOp.total_cons, worth_of_read hproduct]
    exact (total_split op _ (fun entry => (cofactor? inner factor entry.1).isSome) terms).symm

end Rules
end Symbolic
