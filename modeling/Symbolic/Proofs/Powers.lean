import Mathlib.Algebra.BigOperators.Group.List.Basic
import Mathlib.Logic.Function.Iterate
import Symbolic.Expr.Grouping
import Symbolic.Proofs.Parts

/-! The factors of nested products stay the same while these are simplified, unless a zero is among
them. -/
namespace Symbolic

namespace Expr

variable {factors : Multiset Expr} {terms terms' : Bag} {e x : Expr} {n : Nat}

theorem gathered_of_nodup (h : factors.Nodup) : gathered factors = factors := by
  rw [gathered, h.dedup]
  refine (Multiset.map_congr rfl fun x hx => ?_).trans (Multiset.map_id' factors)
  rw [if_pos (Multiset.count_eq_one_of_mem h hx)]

/-- Gathering equal factors leaves fewer. -/
theorem card_gathered_lt (h : ¬ factors.Nodup) : (gathered factors).card < factors.card := by
  have hne : factors.dedup ≠ factors := fun heq => h (Multiset.dedup_eq_self.mp heq)
  rw [gathered, Multiset.card_map]
  exact Multiset.card_lt_card (lt_of_le_of_ne (Multiset.dedup_le factors) hne)

theorem distinct_of_nodup (h : factors.Nodup) : distinct factors = factors :=
  Function.iterate_fixed (gathered_of_nodup h) _

/-- More rounds than there are factors change nothing. -/
theorem iterate_gathered (h : factors.card ≤ n) : gathered^[n] factors = distinct factors := by
  induction n using Nat.strong_induction_on generalizing factors with
  | h n ih =>
    by_cases hnodup : factors.Nodup
    · rw [distinct_of_nodup hnodup]
      exact Function.iterate_fixed (gathered_of_nodup hnodup) n
    · have hlt := card_gathered_lt hnodup
      obtain ⟨m, hm⟩ : ∃ m, factors.card = m + 1 := ⟨factors.card - 1, by omega⟩
      obtain ⟨k, rfl⟩ : ∃ k, n = k + 1 := ⟨n - 1, by omega⟩
      have hmore : gathered^[k] (gathered factors) = distinct (gathered factors) :=
        ih k (by omega) (by omega)
      have hall : gathered^[m] (gathered factors) = distinct (gathered factors) :=
        ih m (by omega) (by omega)
      rw [Function.iterate_succ_apply, hmore, distinct.eq_1 factors, hm,
        Function.iterate_succ_apply, hall]

theorem distinct_gathered (factors : Multiset Expr) :
    distinct (gathered factors) = distinct factors := by
  by_cases hnodup : factors.Nodup
  · rw [gathered_of_nodup hnodup]
  · have hlt := card_gathered_lt hnodup
    obtain ⟨m, hm⟩ : ∃ m, factors.card = m + 1 := ⟨factors.card - 1, by omega⟩
    rw [distinct.eq_1 factors, hm, Function.iterate_succ_apply, iterate_gathered (by omega)]

theorem powersTerms_eq (terms : Bag) :
    powersTerms terms = ((Bag.elements terms).map powers).sum := by
  induction terms with
  | nil => rfl
  | cons entry rest ih =>
    rw [powersTerms, ih, Bag.elements_cons, List.map_append, List.sum_append, List.map_replicate,
      List.sum_replicate]

/-- The factors of a multiset do not depend on how it is listed. -/
theorem powersTerms_of_perm (h : (Bag.elements terms).Perm (Bag.elements terms')) :
    powersTerms terms = powersTerms terms' := by
  rw [powersTerms_eq, powersTerms_eq]
  exact (h.map powers).sum_eq

theorem powersTerms_insert (e : Expr) (terms : Bag) :
    powersTerms (Bag.insert e terms) = e.powers + powersTerms terms := by
  rw [powersTerms_eq, powersTerms_eq, ((Bag.elements_insert e terms).map powers).sum_eq,
    List.map_cons, List.sum_cons]

theorem powersTerms_append (terms terms' : Bag) :
    powersTerms (terms ++ terms') = powersTerms terms + powersTerms terms' := by
  rw [powersTerms_eq, powersTerms_eq, powersTerms_eq, Bag.elements_append, List.map_append,
    List.sum_append]

/-- A symbol, or the power of such a factor. -/
inductive Power : Expr → Prop
  | symbol (name : String) : Power (.symbol name)
  | power {x : Expr} (n : Nat) (h : Power x) : Power (.pow x (.int n))

/-- An operand of a product that holds no other product: an integer, or a power. -/
inductive Operand : Expr → Prop
  | int (v : Int) : Operand (.int v)
  | power {e : Expr} (h : Power e) : Operand e

/-- Nested products over integers and powers. -/
inductive Product : Expr → Prop
  | operand {e : Expr} (h : Operand e) : Product e
  | nested {terms : Bag} (h : ∀ x ∈ Bag.keys terms, Product x) : Product (.nary .mul terms)

theorem Power.powers_eq (h : Power e) : e.powers = {e} := by cases h <;> rfl

theorem Power.isConstant_eq (h : Power e) : e.isConstant = false := by cases h <;> rfl

theorem Operand.powers_eq (h : Operand e) : e.powers = if e.isConstant then 0 else {e} := by
  cases h with
  | int v => rfl
  | power h => rw [h.powers_eq, h.isConstant_eq, if_neg Bool.false_ne_true]

theorem Operand.nodup_powers (h : Operand e) : e.powers.Nodup := by
  rw [h.powers_eq]
  split
  · exact Multiset.nodup_zero
  · exact Multiset.nodup_singleton e

theorem Operand.exists_int {value : Number} (h : Operand (.constant value)) :
    ∃ v, value = .int v := by
  cases h with
  | int v => exact ⟨v, rfl⟩
  | power h => cases h

theorem Operand.op?_ne (h : Operand e) (op : SemigroupOp) : e.op? ≠ some (.semigroup op) := by
  cases h with
  | int v => nofun
  | power h => cases h <;> nofun

theorem Product.operand_of_flat (h : Product e) (hflat : e.op? ≠ some (.semigroup .mul)) :
    Operand e := by
  cases h with
  | operand h => exact h
  | nested => exact (hflat rfl).elim

theorem Product.of_mem_keys (h : Product (.nary .mul terms)) (hx : x ∈ Bag.keys terms) :
    Product x := by
  cases h with
  | operand h => exact (h.op?_ne .mul rfl).elim
  | nested h => exact h x hx

theorem product_of_nests (h : e.Nests .mul) : Product e := by
  refine h.induction (fun e hleaf => .operand ?_) fun terms hkeys => .nested fun x hx =>
    (hkeys x hx).2
  cases hleaf with
  | int v => exact .int v
  | symbol name => exact .power (.symbol name)

/-- The factors of operands that are no products are those that are no constants. -/
theorem powersTerms_of_operands (h : ∀ x ∈ Bag.keys terms, Operand x) :
    powersTerms terms = ↑(Bag.elements (terms.filter fun entry => !entry.1.isConstant)) := by
  induction terms with
  | nil => rfl
  | cons entry rest ih =>
    obtain ⟨x, n⟩ := entry
    obtain ⟨hx, hrest⟩ := List.forall_mem_cons.mp h
    rw [powersTerms, ih hrest, hx.powers_eq]
    cases hc : x.isConstant with
    | true =>
      rw [List.filter_cons_of_neg (by simp [hc]), if_pos rfl, nsmul_zero, zero_add]
    | false =>
      rw [List.filter_cons_of_pos (by simp [hc]), if_neg Bool.false_ne_true, Bag.elements_cons,
        Multiset.nsmul_singleton, ← Multiset.coe_add]
      rfl

/-- Gathering takes each key of a multiset to the power of its multiplicity. -/
theorem gathered_elements (hb : Bag.Canonical terms) :
    gathered ↑(Bag.elements terms) =
      ↑(terms.map fun entry => if entry.2 = 1 then entry.1 else .pow entry.1 (.int entry.2)) := by
  have hkeys : Multiset.dedup ↑(Bag.elements terms) = (↑(Bag.keys terms) : Multiset Expr) := by
    have hnodup : (↑(Bag.keys terms) : Multiset Expr).Nodup := Multiset.coe_nodup.mpr hb.nodup_keys
    refine (Multiset.Nodup.ext (Multiset.nodup_dedup _) hnodup).mpr fun x => ?_
    rw [Multiset.mem_dedup]
    exact Bag.mem_elements_iff_mem_keys hb
  rw [gathered, hkeys, Multiset.map_coe, Bag.keys, List.map_map]
  refine congrArg _ (List.map_congr_left fun entry hm => ?_)
  have hcount : Multiset.count entry.1 ↑(Bag.elements terms) = entry.2 :=
    (Multiset.coe_count _ _).trans (Bag.count_elements hb hm)
  simp only [Function.comp_apply, hcount]

/-- Every symbol is one. -/
def allOnes (width : Nat) : Reading := .byPlaces width fun _ => 1

variable {width : Nat} {place : Place}

theorem Power.read_allOnes (h : Power e) : e.read (allOnes width) place = some 1 := by
  induction h generalizing place with
  | symbol name => rfl
  | @power x n h ih =>
    have hexponent : ¬ (n : Int) < 0 := by omega
    simp [pow, read, ih, BinaryOp.result?, hexponent]

theorem Product.defined_allOnes (h : Product e) : e.Defined (allOnes width) .value := by
  induction h with
  | operand h =>
    cases h with
    | int v => rfl
    | power h => exact defined_of_read h.read_allOnes
  | nested h ih => exact defined_nary_iff.mpr ⟨rfl, ih⟩

/-- A zero makes the product zero. -/
theorem Product.worth_ne_zero (h : Product (.nary .mul terms))
    (hne : (nary .mul terms).worth (allOnes width) .value ≠ 0) (hx : x ∈ Bag.elements terms) :
    x.worth (allOnes width) .value ≠ 0 := by
  intro hzero
  refine hne ((worth_nary h.defined_allOnes).trans (SemigroupOp.total_of_absorbing Int.zero_mul ?_))
  rw [← hzero]
  exact List.mem_map_of_mem hx

theorem Operand.of_mem_children (h : Operand e) (hx : x ∈ e.children) : Operand x := by
  cases h with
  | int v => cases hx
  | power h =>
    cases h with
    | symbol name => cases hx
    | power n h =>
      simp only [pow, children, ordered, List.mem_cons, List.not_mem_nil, or_false] at hx
      rcases hx with rfl | rfl
      · exact .power h
      · exact .int n

/-- What keeps the factors of nested products, if no zero is among them, and does not touch an
operand of a product. -/
structure KeepsPowers (width : Nat) (e e' : Expr) : Prop where
  accords : Accords (allOnes width) e e'
  operand : Operand e → e' = e
  product : Product e → Product e'
  powers : Product e → e.worth (allOnes width) .value ≠ 0 → e'.powers = e.powers

theorem worth_of_accords {e' : Expr} (h : Accords (allOnes width) e e') (he : Product e) :
    e'.worth (allOnes width) .value = e.worth (allOnes width) .value := by
  obtain ⟨v, hv, hagrees⟩ := h .value _ he.defined_allOnes.read
  exact (worth_of_read hv).trans hagrees

theorem compatible_keepsPowers (width : Nat) : Compatible (KeepsPowers width) where
  refl e := ⟨.refl e, fun _ => rfl, id, fun _ _ => rfl⟩
  trans h h' :=
    { accords := h.accords.trans h'.accords
      operand := fun he => by
        obtain rfl := h.operand he
        exact h'.operand he
      product := fun he => h'.product (h.product he)
      powers := fun he hne => by
        have hne' := (worth_of_accords h.accords he).trans_ne hne
        exact (h'.powers (h.product he) hne').trans (h.powers he hne) }
  rebuilt {e f} hf := by
    have hsame (he : Operand e) : e.rebuilt f = e :=
      rebuilt_of_map_eq fun c hc => (hf c hc).operand (he.of_mem_children hc)
    refine ⟨accords_rebuilt fun c hc => (hf c hc).accords, hsame, fun he => ?_, fun he hne => ?_⟩
    · cases he with
      | operand h =>
        rw [hsame h]
        exact .operand h
      | @nested terms h =>
        obtain ⟨terms', hrebuilt, _⟩ := elements_rebuilt .mul terms f
        rw [hrebuilt]
        refine .nested fun x hx => ?_
        have hchild : x ∈ ((nary .mul terms).rebuilt f).children := by rwa [hrebuilt]
        obtain ⟨original, ho, rfl⟩ := mem_children_rebuilt hchild
        exact (hf original ho).product (h original ho)
    · cases he with
      | operand h => rw [hsame h]
      | @nested terms h =>
        obtain ⟨terms', hrebuilt, hperm⟩ := elements_rebuilt .mul terms f
        rw [hrebuilt, Expr.powers, Expr.powers, powersTerms_eq, powersTerms_eq,
          (hperm.map _).sum_eq, List.map_map]
        refine congrArg (fun factors => distinct (List.sum factors))
          (List.map_congr_left fun x hx => ?_)
        have hkey := Bag.mem_keys_of_mem_elements hx
        exact (hf x hkey).powers (h x hkey) ((Product.nested h).worth_ne_zero hne hx)

end Expr

namespace Rules

open Symbolic.Expr

variable {terms : Bag} {e e' x : Expr} {value : Number} {width : Nat}

theorem not_rewrites_of_operand (h : Operand e) : ¬ Rewrites width e e' := by
  intro hr
  cases h with
  | int v => cases hr
  | power h =>
    cases h with
    | symbol name => cases hr
    | power n h =>
      cases hr with
      | foldBinary => cases h
      | selfCompare hop | subtractRight hop | subtractLeft hop => cases hop

theorem product_of_keys (hd : (nary .mul terms).Defined (allOnes width) .value)
    (h : ∀ x ∈ Bag.keys terms, x.isConstant = true ∨ Product x) : Product (.nary .mul terms) := by
  refine .nested fun x hx => (h x hx).elim (fun hc => ?_) id
  obtain ⟨value, rfl⟩ := isConstant_iff.mp hc
  obtain ⟨v, rfl⟩ := exists_int_of_defined ((defined_nary_iff.mp hd).2 _ hx)
  exact .operand (.int v)

theorem operand_grouped (h : Operand x) (hc : x.isConstant = false) (n : Nat) :
    Operand (grouped .mul x n) := by
  cases h with
  | int v => cases hc
  | power h => exact .power (.power n h)

/-- Where nothing is nested, no rewrite leads out of the products. -/
theorem Rewrites.product (h : Rewrites width (.nary .mul terms) e')
    (hd : e'.Defined (allOnes width) .value) (hx : ∀ x ∈ Bag.keys terms, Operand x) :
    Product e' := by
  cases h with
  | flatten hnested =>
    exact (not_nested_of_flat (fun x hkey => (hx x hkey).op?_ne .mul) hnested).elim
  | idempotent hop => simp at hop
  | shortCircuit =>
    obtain ⟨v, rfl⟩ := exists_int_of_defined hd
    exact .operand (.int v)
  | foldNary =>
    refine product_of_keys hd fun x hkey => ?_
    split at hkey
    · exact Or.inr (.operand (hx x (Bag.keys_filter_subset _ _ hkey)))
    · rcases Bag.mem_keys_of_mem_keys_insert hkey with rfl | hkey
      · exact Or.inl rfl
      · exact Or.inr (.operand (hx x (Bag.keys_filter_subset _ _ hkey)))
  | empty => exact .operand (.int 1)
  | single => exact .operand (hx e' List.mem_cons_self)
  | repetition =>
    refine .nested fun x hkey => ?_
    obtain ⟨entry, hm, rfl⟩ := List.mem_map.mp (Bag.keys_ofEntries_subset _ hkey)
    obtain ⟨original, ho, rfl⟩ := List.mem_map.mp hm
    have hoperand := hx original.1 (List.mem_map_of_mem ho)
    split
    · exact .operand hoperand
    · next hrepeated =>
      obtain ⟨_, hc⟩ : original.2 ≠ 1 ∧ original.1.isConstant = false := by simpa using hrepeated
      exact .operand (operand_grouped hoperand hc original.2)
  | distribute hi => cases hi

theorem powersTerms_filter_constants (terms : Bag) :
    powersTerms (terms.filter fun entry => !entry.1.isConstant) = powersTerms terms := by
  induction terms with
  | nil => rfl
  | cons entry rest ih =>
    cases hc : entry.1.isConstant with
    | true =>
      obtain ⟨value, hv⟩ := isConstant_iff.mp hc
      have hnone : entry.1.powers = 0 := by
        rw [hv]
        rfl
      rw [List.filter_cons_of_neg (by simp [hc]), ih, powersTerms, hnone, nsmul_zero, zero_add]
    | false => rw [List.filter_cons_of_pos (by simp [hc]), powersTerms, powersTerms, ih]

/-- Repeated operands are replaced by what they are gathered to. -/
theorem powersTerms_grouped (h : ∀ x ∈ Bag.keys terms, Operand x) :
    powersTerms (terms.map fun entry => if entry.2 = 1 || entry.1.isConstant then entry
        else (grouped .mul entry.1 entry.2, 1)) =
      ↑((terms.filter fun entry => !entry.1.isConstant).map fun entry =>
        if entry.2 = 1 then entry.1 else .pow entry.1 (.int entry.2)) := by
  induction terms with
  | nil => rfl
  | cons entry rest ih =>
    obtain ⟨x, n⟩ := entry
    obtain ⟨hx, hrest⟩ := List.forall_mem_cons.mp h
    rw [List.map_cons, powersTerms, ih hrest]
    cases hc : x.isConstant with
    | true =>
      rw [List.filter_cons_of_neg (by simp [hc]), if_pos (by simp), hx.powers_eq, if_pos hc,
        nsmul_zero, zero_add]
    | false =>
      rw [List.filter_cons_of_pos (by simp [hc]), List.map_cons]
      by_cases hn : n = 1
      · subst hn
        simp only [decide_true, Bool.true_or, if_true, hx.powers_eq, hc, if_neg Bool.false_ne_true]
        rw [one_nsmul, Multiset.singleton_add, Multiset.cons_coe]
      · have hpower : (grouped .mul x n).powers = {.pow x (.int n)} := rfl
        rw [if_neg (by simp [hn]), if_neg hn, hpower, one_nsmul, Multiset.singleton_add,
          Multiset.cons_coe]

theorem powersTerms_scaled (hone : ∀ entry ∈ terms, entry.2 = 1) (count : Nat) :
    powersTerms (terms.map fun entry => (entry.1, scaledCount entry.2 count)) =
      count • powersTerms terms := by
  induction terms with
  | nil => exact (nsmul_zero count).symm
  | cons entry rest ih =>
    obtain ⟨hentry, hrest⟩ := List.forall_mem_cons.mp hone
    rw [List.map_cons, powersTerms, ih hrest, powersTerms, hentry, scaledCount_one, one_mul,
      one_nsmul, nsmul_add]

/-- Flattening takes the factors out of the nested products, where these have been gathered. -/
theorem powersTerms_nestedTerms (h : ∀ inner, .nary .mul inner ∈ Bag.keys terms →
      (∀ entry ∈ inner, entry.2 = 1) ∧ (powersTerms inner).Nodup) :
    powersTerms (nestedTerms .mul terms) =
      powersTerms (terms.filter fun entry => isNary .mul entry.1) := by
  induction terms with
  | nil => rfl
  | cons entry rest ih =>
    obtain ⟨child, count⟩ := entry
    have hrest := ih fun inner hm => h inner (List.mem_cons_of_mem _ hm)
    cases hn : isNary .mul child with
    | true =>
      obtain ⟨inner, rfl⟩ := isNary_iff.mp hn
      obtain ⟨hone, hnodup⟩ := h inner List.mem_cons_self
      rw [nestedTerms_cons_nary, powersTerms_append, powersTerms_scaled hone, hrest,
        List.filter_cons_of_pos (by simp [hn]), powersTerms, Expr.powers, distinct_of_nodup hnodup]
    | false => rw [nestedTerms_cons_other hn, hrest, List.filter_cons_of_neg (by simp [hn])]

/-- Unless a zero is among the operands, a rewrite keeps the factors of a product. -/
theorem Rewrites.powers (h : Rewrites width (.nary .mul terms) e')
    (hw : (Expr.nary .mul terms).WellFormed) (hx : ∀ x ∈ Bag.keys terms, Operand x)
    (hne : (Expr.nary .mul terms).worth (allOnes width) .value ≠ 0) :
    e'.powers = (Expr.nary .mul terms).powers := by
  cases h with
  | flatten hnested =>
    exact (not_nested_of_flat (fun x hkey => (hx x hkey).op?_ne .mul) hnested).elim
  | idempotent hop => simp at hop
  | shortCircuit habsorbing =>
    obtain ⟨z, hz, habsorbed⟩ := exists_of_absorbing? habsorbing
    obtain ⟨v, rfl⟩ := (hx _ hz).exists_int
    have hworth := Product.worth_ne_zero (.nested fun x hkey => .operand (hx x hkey)) hne
      ((Bag.mem_elements_iff_mem_keys hw.canonical).mpr hz)
    have hv : v = 0 := by simpa [absorbed?, Number.isZero] using Option.isSome_of_mem habsorbed
    exact (hworth hv).elim
  | foldNary =>
    have hrest := powersTerms_filter_constants terms
    rw [Expr.powers, Expr.powers, ← hrest]
    split
    · rfl
    · rw [powersTerms_insert, Expr.powers, zero_add]
  | empty => rfl
  | single =>
    have hoperand := hx e' List.mem_cons_self
    rw [Expr.powers, powersTerms, powersTerms, one_nsmul, add_zero,
      distinct_of_nodup hoperand.nodup_powers]
  | repetition =>
    have hfactors : powersTerms terms = _ := powersTerms_of_operands hx
    rw [Expr.powers, Expr.powers, powersTerms_of_perm (Bag.elements_ofEntries _),
      powersTerms_grouped hx,
      ← gathered_elements (Bag.canonical_filter _ hw.canonical), distinct_gathered, hfactors]
  | distribute hi => cases hi

theorem powers_flattened (h : ∀ inner, .nary .mul inner ∈ Bag.keys terms →
      (∀ entry ∈ inner, entry.2 = 1) ∧ (powersTerms inner).Nodup) :
    (Expr.nary .mul (Bag.merge (terms.filter fun entry => !isNary .mul entry.1)
      (nestedTerms .mul terms))).powers = (Expr.nary .mul terms).powers := by
  have hmerged := Bag.elements_merge (terms.filter fun entry => !isNary .mul entry.1)
    (nestedTerms .mul terms)
  rw [← Bag.elements_append] at hmerged
  have hsplit := Bag.elements_filter_append (fun entry => isNary .mul entry.1) terms
  rw [← Bag.elements_append] at hsplit
  rw [Expr.powers, Expr.powers, powersTerms_of_perm hmerged, powersTerms_append,
    powersTerms_nestedTerms h, ← powersTerms_append, powersTerms_of_perm hsplit]

end Rules

namespace Engine

open Rules Symbolic.Expr

variable {engine : Engine} {levels steps : Nat} {parent : Option Operator} {terms : Bag}
  {e n x : Expr} {step : Step} {width : Nat}

/-- A product in normal form is over operands, and no two of its factors are equal. -/
theorem NormalForm.operand (h : engine.NormalForm parent (.nary .mul terms))
    (hd : engine.registry = .default) (hw : (Expr.nary .mul terms).WellFormed)
    (hp : Product (.nary .mul terms)) (hx : x ∈ Bag.keys terms) : Operand x := by
  have hreduced : ReducedTerms .mul terms := h.reduced hd hw
  exact (hp.of_mem_keys hx).operand_of_flat (hreduced.flat x hx)

theorem NormalForm.nodup_powers (h : engine.NormalForm parent (.nary .mul terms))
    (hd : engine.registry = .default) (hw : (Expr.nary .mul terms).WellFormed)
    (hp : Product (.nary .mul terms)) : (powersTerms terms).Nodup := by
  have hreduced : ReducedTerms .mul terms := h.reduced hd hw
  rw [powersTerms_of_operands fun x hx => h.operand hd hw hp hx, Multiset.coe_nodup,
    Bag.elements_filter_keys fun x => !x.isConstant, Bag.elements_eq_keys hreduced.count_eq_one]
  exact hreduced.nodup.filter _

/-- Over normal forms no rewrite leads out of the products or changes their factors. -/
theorem keepsPowers_of_rewrite? (hd : engine.registry = .default) (hw : e.WellFormed)
    (hc : ∀ c ∈ e.children, engine.NormalForm e.op? c)
    (h : engine.rewrite? parent e = .ok (some step)) :
    KeepsPowers engine.config.wordBits e step.after := by
  have hrewrites := rewrites_of_rewrite? hd h
  have haccords : Accords (allOnes engine.config.wordBits) e step.after :=
    accords_of_rewrite? hd hw hc h
  have hkept (he : Product e) : Product step.after ∧
      (e.worth (allOnes engine.config.wordBits) .value ≠ 0 → step.after.powers = e.powers) := by
    cases he with
    | operand he => exact (not_rewrites_of_operand he hrewrites).elim
    | @nested terms hkeys =>
      rcases nested_or_flat .mul terms with hnested | hflat
      · rw [after_eq_flattened hd hw hc hnested h]
        refine ⟨.nested fun x hx => ?_, fun _ => powers_flattened fun inner hm => ?_⟩
        · rcases mem_keys_flattened hx with hx | ⟨inner, hm, hx⟩
          · exact hkeys x hx
          · exact (hkeys _ hm).of_mem_keys hx
        · have hinner := hw.of_mem_children hm
          have hreduced : ReducedTerms .mul inner := (hc _ hm).reduced hd hinner
          exact ⟨hreduced.count_eq_one, (hc _ hm).nodup_powers hd hinner (hkeys _ hm)⟩
      · have hoperand : ∀ x ∈ Bag.keys terms, Operand x :=
          fun x hx => (hkeys x hx).operand_of_flat (hflat x hx)
        have hdefined := haccords.defined (Product.nested hkeys).defined_allOnes
        exact ⟨hrewrites.product hdefined hoperand, fun hne => hrewrites.powers hw hoperand hne⟩
  exact ⟨haccords, fun he => (not_rewrites_of_operand he hrewrites).elim, fun he => (hkept he).1,
    fun he => (hkept he).2⟩

/-- The normal form of nested products has the same factors, unless it is zero. -/
theorem Normalizes.keepsPowers (h : engine.Normalizes levels parent e n steps)
    (hd : engine.registry = .default) (hw : e.WellFormed) :
    KeepsPowers engine.config.wordBits e n :=
  h.related_of_default hd hw (compatible_keepsPowers _) fun _ _ _ hw hc hr =>
    keepsPowers_of_rewrite? hd hw hc hr

end Engine
end Symbolic
