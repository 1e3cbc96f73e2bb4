import Symbolic.Expr.Grouping
import Symbolic.Proofs.Nesting
import Symbolic.Proofs.Progress

/-! Nested conjunctions keep the same symbols and the same integers while they are simplified,
unless a zero is among them. -/
namespace Symbolic

namespace Expr

variable {terms terms' : Bag} {e e' x : Expr} {v : Int} {width : Nat} {op : SemigroupOp}

theorem mem_keptTerms : v ∈ keptTerms terms ↔ ∃ x ∈ Bag.keys terms, v ∈ x.kept := by
  induction terms with
  | nil => simp [keptTerms, Bag.keys]
  | cons entry rest ih => simp [keptTerms, ih, Bag.keys]

/-- Well-formed nested conjunctions over integers and symbols. -/
structure Conjunction (e : Expr) : Prop where
  wellFormed : e.WellFormed
  nests : e.Nests .and

theorem Conjunction.of_mem_keys (h : Conjunction (.nary .and terms)) (hx : x ∈ Bag.keys terms) :
    Conjunction x :=
  ⟨h.wellFormed.of_mem_children hx, (nests_nary_iff.mp h.nests).2 x hx⟩

theorem Conjunction.zero_mem_iff (h : Conjunction e) : .int 0 ∈ e.leaves ↔
    e.worth (.byPlaces width fun _ => 1) .truth = 0 := h.nests.zero_mem_iff (Or.inr rfl)

/-- Where one symbol alone is false, the conjunctions over it are. -/
theorem Conjunction.symbol_mem_iff (h : Conjunction e) (hzero : .int 0 ∉ e.leaves) (name : String) :
    .symbol name ∈ e.leaves ↔
      e.worth (.byPlaces width fun other => if other = name then 0 else 1) .truth = 0 := by
  refine Iff.trans ?_ (h.nests.worth_eq_zero_iff (Or.inr rfl) _).symm
  refine ⟨fun hm => ⟨_, hm, if_pos rfl⟩, ?_⟩
  rintro ⟨x, hx, hfalse⟩
  cases h.nests.isLeaf hx with
  | int v =>
    obtain rfl : v = 0 := hfalse
    exact (hzero hx).elim
  | symbol other =>
    by_cases hname : other = name
    · exact hname ▸ hx
    · have hone : (if other = name then (0 : Int) else 1) = 0 := hfalse
      rw [if_neg hname] at hone
      cases hone

theorem Conjunction.leaves_all_iff (h : Conjunction e) :
    e.leaves.all isConstant = true ↔ ∀ name, .symbol name ∉ e.leaves := by
  rw [List.all_eq_true]
  constructor
  · exact fun hall name hm => nomatch hall _ hm
  · intro hnone x hx
    cases h.nests.isLeaf hx with
    | int v => rfl
    | symbol name => exact (hnone name hx).elim

section

variable (h : Conjunction e) (h' : Conjunction e') (ha : ∀ env, Accords (.byPlaces width env) e e')

include h ha

theorem worth_eq_zero_iff_of_accords (env : Assignment) :
    e'.worth (.byPlaces width env) .truth = 0 ↔ e.worth (.byPlaces width env) .truth = 0 := by
  have hdefined := (h.nests.defined_and_seen_worth (.byPlaces width env)).1
  obtain ⟨w, hw, hagrees⟩ := ha env .truth _ hdefined.read
  rw [worth_of_read hw]
  exact hagrees

include h'

theorem zero_mem_iff_of_accords : .int 0 ∈ e'.leaves ↔ .int 0 ∈ e.leaves :=
  h'.zero_mem_iff.trans ((worth_eq_zero_iff_of_accords h ha _).trans h.zero_mem_iff.symm)

theorem symbol_mem_iff_of_accords (hzero : .int 0 ∉ e.leaves) (name : String) :
    .symbol name ∈ e'.leaves ↔ .symbol name ∈ e.leaves := by
  have hzero' := (zero_mem_iff_of_accords h h' ha).not.mpr hzero
  exact (h'.symbol_mem_iff hzero' name).trans
    ((worth_eq_zero_iff_of_accords h ha _).trans (h.symbol_mem_iff hzero name).symm)

theorem leaves_all_eq_of_accords (hzero : .int 0 ∉ e.leaves) :
    e'.leaves.all isConstant = e.leaves.all isConstant := by
  rw [Bool.eq_iff_iff, h'.leaves_all_iff, h.leaves_all_iff]
  exact forall_congr' fun name => not_congr (symbol_mem_iff_of_accords h h' ha hzero name)

end

/-- What keeps the integers that conjunctions keep, if no zero is among them. -/
structure KeepsIntegers (width : Nat) (e e' : Expr) : Prop where
  accords : ∀ env, Accords (.byPlaces width env) e e'
  conjunction : Conjunction e → Conjunction e'
  kept : Conjunction e → .int 0 ∉ e.leaves → e'.kept = e.kept

/-- Among the same integers two conjunctions over the same leaves keep the same. -/
theorem kept_nary_congr (hkept : keptTerms terms' = keptTerms terms)
    (hall : (nary op terms').leaves.all isConstant = (nary op terms).leaves.all isConstant) :
    (nary op terms').kept = (nary op terms).kept := by
  rw [kept, kept, hkept, hall]

theorem keptTerms_congr
    (h : ∀ v : Int, (∃ x ∈ Bag.keys terms', v ∈ x.kept) ↔ ∃ x ∈ Bag.keys terms, v ∈ x.kept) :
    keptTerms terms' = keptTerms terms := by
  ext v
  rw [mem_keptTerms, mem_keptTerms]
  exact h v

theorem conjunction_rebuilt {f : Expr → Expr} (h : Conjunction e)
    (hf : ∀ c ∈ e.children, Conjunction c → Conjunction (f c)) : Conjunction (e.rebuilt f) := by
  by_cases ho : e.op? = some (.semigroup .and)
  · obtain ⟨terms, rfl⟩ := Rules.isNary_iff.mp (decide_eq_true ho)
    refine ⟨wellFormed_rebuilt h.wellFormed fun c hc => (hf c hc (h.of_mem_keys hc)).wellFormed, ?_⟩
    obtain ⟨terms', hrebuilt, _⟩ := elements_rebuilt .and terms f
    rw [hrebuilt]
    refine nests_nary_iff.mpr ⟨rfl, fun x hx => ?_⟩
    have hchild : x ∈ ((nary .and terms).rebuilt f).children := by rwa [hrebuilt]
    obtain ⟨original, ho, rfl⟩ := mem_children_rebuilt hchild
    exact (hf original ho (h.of_mem_keys ho)).nests
  · cases h.nests.isLeaf_of_flat ho <;> exact h

theorem compatible_keepsIntegers (width : Nat) : Compatible (KeepsIntegers width) where
  refl e := ⟨fun _ => .refl e, id, fun _ _ => rfl⟩
  trans h h' :=
    { accords := fun env => (h.accords env).trans (h'.accords env)
      conjunction := fun he => h'.conjunction (h.conjunction he)
      kept := fun he hzero => by
        have hzero' := (zero_mem_iff_of_accords he (h.conjunction he) h.accords).not.mpr hzero
        exact (h'.kept (h.conjunction he) hzero').trans (h.kept he hzero) }
  rebuilt {e f} hf := by
    have haccords (env : Assignment) : Accords (.byPlaces width env) e (e.rebuilt f) :=
      accords_rebuilt fun c hc => (hf c hc).accords env
    have hconjunction (he : Conjunction e) : Conjunction (e.rebuilt f) :=
      conjunction_rebuilt he fun c hc => (hf c hc).conjunction
    refine ⟨haccords, hconjunction, fun he hzero => ?_⟩
    by_cases ho : e.op? = some (.semigroup .and)
    · obtain ⟨terms, rfl⟩ := Rules.isNary_iff.mp (decide_eq_true ho)
      have hcanonical := (wellFormed_iff.mp he.wellFormed).1
      have hall := leaves_all_eq_of_accords he (hconjunction he) haccords hzero
      obtain ⟨terms', hrebuilt, _⟩ := elements_rebuilt .and terms f
      have himages (x : Expr) (hx : x ∈ Bag.keys terms) : (f x).kept = x.kept := by
        refine (hf x hx).kept (he.of_mem_keys hx) fun hm => hzero ?_
        exact mem_leaves_of_mem_keys he.wellFormed.canonical hx hm
      rw [hrebuilt] at hall ⊢
      refine kept_nary_congr (keptTerms_congr fun v => not_iff_not.mp ?_) hall
      have hchildren := forall_children_rebuilt_iff (f := f) hcanonical (p := fun c => v ∉ c.kept)
      rw [hrebuilt] at hchildren
      simp only [not_exists, not_and]
      refine hchildren.trans (forall₂_congr fun x hx => ?_)
      rw [himages x hx]
    · cases he.nests.isLeaf_of_flat ho <;> rfl

theorem mem_keptTerms_of_leaves (h : ∀ x ∈ Bag.keys terms, IsLeaf x) :
    v ∈ keptTerms terms ↔ .int v ∈ Bag.keys terms := by
  rw [mem_keptTerms]
  constructor
  · rintro ⟨x, hx, hv⟩
    cases h x hx with
    | int w => rwa [Finset.mem_singleton.mp hv]
    | symbol name => cases hv
  · exact fun hx => ⟨_, hx, Finset.mem_singleton_self v⟩

theorem IsLeaf.isAtomic (h : IsLeaf e) : e.isAtomic = true := by cases h <;> rfl

theorem IsLeaf.op?_ne (h : IsLeaf e) (op : SemigroupOp) : e.op? ≠ some (.semigroup op) := by
  cases h <;> nofun

theorem nests_int (v : Int) : (int v).Nests op := fun _ hm => List.mem_singleton.mp hm ▸ rfl

theorem nests_of_isLeaf (h : IsLeaf e) : e.Nests op := by
  cases h with
  | int v => exact nests_int v
  | symbol name => exact fun _ hm => List.mem_singleton.mp hm ▸ rfl

theorem leaves_nary_of_leaves (h : ∀ x ∈ Bag.keys terms, IsLeaf x) :
    (nary op terms).leaves = Bag.elements terms := by
  have hsame : ∀ x ∈ Bag.elements terms, x.leaves = [x] :=
    fun x hx => leaves_of_isLeaf (h x (Bag.mem_keys_of_mem_elements hx))
  rw [leaves_nary, List.flatMap_congr hsame]
  exact List.flatMap_singleton' _

/-- Where the integers are reduced to one that is not the identity, that is kept. -/
theorem kept_of_reducedTerms (h : ReducedTerms .and terms) (hl : ∀ x ∈ Bag.keys terms, IsLeaf x)
    (hsymbol : ∃ x ∈ Bag.keys terms, x.isConstant = false) :
    (nary .and terms).kept = keptTerms terms := by
  have hkey {w : Int} (hw : w ∈ keptTerms terms) : .int w ∈ Bag.keys terms :=
    (mem_keptTerms_of_leaves hl).mp hw
  have hle : (keptTerms terms).card ≤ 1 := by
    refine Finset.card_le_one.mpr fun v hv w hw => ?_
    cases h.constant_unique _ _ (hkey hv) (hkey hw)
    rfl
  have hone : 1 ∉ keptTerms terms := fun hm => h.ne_identity _ (hkey hm) rfl
  have hall : ¬ (nary .and terms).leaves.all isConstant = true := by
    rw [leaves_nary_of_leaves hl, Bag.elements_eq_keys h.count_eq_one, List.all_eq_true]
    intro hall
    obtain ⟨x, hx, hc⟩ := hsymbol
    rw [hall x hx] at hc
    cases hc
  rw [kept, if_neg hall]
  by_cases hcard : (keptTerms terms).card = 1
  · rw [if_pos hcard, Finset.erase_eq_of_notMem hone]
  · have hnone : keptTerms terms = ∅ := Finset.card_eq_zero.mp (by omega)
    rw [if_neg hcard, hnone]
    rfl

end Expr

namespace Rules

open Symbolic.Expr

variable {terms : Bag} {e e' x : Expr} {value : Number} {v : Int} {width : Nat}

theorem zero_mem_of_absorbing (hl : ∀ x ∈ Bag.keys terms, IsLeaf x)
    (h : absorbing? (.nary .and terms) = some value) : .int 0 ∈ Bag.keys terms := by
  obtain ⟨z, hkey, habsorbed⟩ := exists_of_absorbing? h
  cases hl _ hkey with
  | int v =>
    have hzero : v = 0 := by simpa [absorbed?, Number.isZero] using Option.isSome_of_mem habsorbed
    rwa [hzero] at hkey

theorem nests_of_keys {env : Assignment}
    (hd : (nary .and terms).Defined (.byPlaces width env) .truth)
    (h : ∀ x ∈ Bag.keys terms, x.isConstant = true ∨ x.Nests .and) :
    (Expr.nary .and terms).Nests .and := by
  refine nests_nary_iff.mpr ⟨rfl, fun x hx => (h x hx).elim (fun hc => ?_) id⟩
  obtain ⟨value, rfl⟩ := isConstant_iff.mp hc
  obtain ⟨v, rfl⟩ := exists_int_of_defined ((defined_nary_iff.mp hd).2 _ hx)
  exact nests_int v

/-- Over leaves no rewrite leads out of the conjunctions. -/
theorem Rewrites.nests (h : Rewrites width (.nary .and terms) e')
    (hw : (Expr.nary .and terms).WellFormed)
    {env : Assignment} (hd : e'.Defined (.byPlaces width env) .truth)
    (hl : ∀ x ∈ Bag.keys terms, IsLeaf x) : e'.Nests .and := by
  have hkeys : ∀ x ∈ Bag.keys terms, x.Nests .and := fun x hx => nests_of_isLeaf (hl x hx)
  cases h with
  | flatten hnested =>
    exact (not_nested_of_flat (fun x hkey => (hl x hkey).op?_ne .and) hnested).elim
  | idempotent => exact nests_nary_iff.mpr ⟨rfl, fun x hx => hkeys x (Bag.mem_keys_ofList.mp hx)⟩
  | shortCircuit =>
    obtain ⟨v, rfl⟩ := exists_int_of_defined hd
    exact nests_int v
  | foldNary =>
    refine nests_of_keys hd fun x hkey => ?_
    split at hkey
    · exact Or.inr (hkeys x (Bag.keys_filter_subset _ _ hkey))
    · rcases Bag.mem_keys_of_mem_keys_insert hkey with rfl | hkey
      · exact Or.inl rfl
      · exact Or.inr (hkeys x (Bag.keys_filter_subset _ _ hkey))
  | empty => exact nests_int 1
  | single => exact hkeys e' List.mem_cons_self
  | repetition hop => simp at hop
  | distribute hi hf =>
    rw [commonFactor?_of_isAtomic hw.canonical.nodup_keys fun x hx => (hl x hx).isAtomic] at hf
    cases hf

/-- Integers other than zero are folded to one, which is dropped. -/
theorem folded_eq_identity (hb : Bag.Canonical terms) (hl : ∀ x ∈ Bag.keys terms, IsLeaf x)
    (hzero : .int 0 ∉ Bag.keys terms)
    (h : accumulateAll .and SemigroupOp.and.identity terms = .ok value) :
    value = SemigroupOp.and.identity := by
  have hdefined : ∀ x ∈ Bag.keys terms,
      x.Defined (.byPlaces 1 fun _ => 1) SemigroupOp.and.place := by
    intro x hx
    cases hl x hx <;> rfl
  have hfolds : FoldsTo (accumulateAll .and SemigroupOp.and.identity terms) _ :=
    foldsTo_accumulateAll (SemigroupOp.seen_neutral .and) hb.2 hdefined
  have htrue : SemigroupOp.total .and ((Bag.elements (constantEntries terms)).map
      (worth (.byPlaces 1 fun _ => 1) SemigroupOp.and.place)) ≠ 0 := by
    rw [Ne, SemigroupOp.total_eq_zero_iff (Or.inr rfl), List.mem_map]
    rintro ⟨x, hx, hfalse⟩
    have hkey := Bag.keys_filter_subset _ _ (Bag.mem_keys_of_mem_elements hx)
    cases hl x hkey with
    | int v =>
      obtain rfl : v = 0 := hfalse
      exact hzero hkey
    | symbol name => cases hfalse
  rw [hfolds.eq_of_ok h]
  exact congrArg Number.int (if_pos ⟨by decide, htrue⟩)

/-- The only integer of a conjunction that is folded is one, if it occurs once. -/
theorem keptTerms_eq_one (hb : Bag.Canonical terms) (hl : ∀ x ∈ Bag.keys terms, IsLeaf x)
    (hcounts : ∀ entry ∈ terms, entry.2 = 1)
    (hone : ∀ only count, constantEntries terms = [(only, count)] →
      1 < count ∨ only = .constant SemigroupOp.and.identity)
    (hcard : (keptTerms terms).card = 1) : keptTerms terms = {1} := by
  obtain ⟨v, hv⟩ := Finset.card_eq_one.mp hcard
  have hkey : .int v ∈ Bag.keys terms :=
    (mem_keptTerms_of_leaves hl).mp (hv ▸ Finset.mem_singleton_self v)
  have hsame : ∀ x ∈ Bag.keys (constantEntries terms), x = .int v := by
    intro x hx
    obtain ⟨⟨x, n⟩, hm, rfl⟩ := List.mem_map.mp hx
    obtain ⟨hterm, hc⟩ := List.mem_filter.mp hm
    have hkey : x ∈ Bag.keys terms := List.mem_map_of_mem hterm
    cases hl x hkey with
    | int w =>
      have hmem := (mem_keptTerms_of_leaves hl).mpr hkey
      rw [hv] at hmem
      rw [Finset.mem_singleton.mp hmem]
    | symbol name => cases hc
  have hnodup : (Bag.keys (constantEntries terms)).Nodup := (Bag.canonical_filter _ hb).nodup_keys
  rw [List.eq_replicate_of_mem hsame, List.nodup_replicate] at hnodup
  obtain ⟨entry, hm, hentry⟩ := List.mem_map.mp hkey
  have hconstant : entry ∈ constantEntries terms := List.mem_filter.mpr ⟨hm, by rw [hentry]; rfl⟩
  have hlength : (constantEntries terms).length = 1 := by
    have hpos := List.length_pos_of_mem hconstant
    rw [Bag.keys, List.length_map] at hnodup
    omega
  obtain ⟨only, hlist⟩ := List.length_eq_one_iff.mp hlength
  rw [hlist, List.mem_singleton] at hconstant
  subst hconstant
  rcases hone entry.1 entry.2 hlist with hmany | hidentity
  · rw [hcounts entry hm] at hmany
    exact (Nat.lt_irrefl 1 hmany).elim
  · rw [hentry] at hidentity
    cases hidentity
    exact hv

/-- Where nothing is nested or repeated, a rewrite keeps the integers that are kept. -/
theorem Rewrites.kept (h : Rewrites width (.nary .and terms) e')
    (hw : (Expr.nary .and terms).WellFormed)
    (hl : ∀ x ∈ Bag.keys terms, IsLeaf x) (hcounts : ∀ entry ∈ terms, entry.2 = 1)
    (hzero : .int 0 ∉ Bag.keys terms)
    (hall : e'.leaves.all isConstant = (Expr.nary .and terms).leaves.all isConstant) :
    e'.kept = (Expr.nary .and terms).kept := by
  cases h with
  | flatten hnested =>
    exact (not_nested_of_flat (fun x hkey => (hl x hkey).op?_ne .and) hnested).elim
  | idempotent _ hrepeated =>
    obtain ⟨entry, hm, hn⟩ := hrepeated
    rw [hcounts entry hm] at hn
    exact (Nat.lt_irrefl 1 hn).elim
  | shortCircuit habsorbing => exact (hzero (zero_mem_of_absorbing hl habsorbing)).elim
  | foldNary _ hone _ hvalue =>
    obtain rfl := folded_eq_identity hw.canonical hl hzero hvalue
    rw [if_pos rfl] at hall ⊢
    have hfolded : (if (keptTerms terms).card = 1 then keptTerms terms else {1}) = {1} := by
      split
      · next hcard => exact keptTerms_eq_one hw.canonical hl hcounts hone hcard
      · rfl
    have hnone : keptTerms (terms.filter fun entry => !entry.1.isConstant) = ∅ := by
      refine Finset.eq_empty_of_forall_notMem fun v hv => ?_
      obtain ⟨x, hx, hv⟩ := mem_keptTerms.mp hv
      obtain ⟨⟨x, n⟩, hm, rfl⟩ := List.mem_map.mp hx
      obtain ⟨hterm, hc⟩ := List.mem_filter.mp hm
      cases hl x (List.mem_map_of_mem hterm) with
      | int w => cases hc
      | symbol name => cases hv
    rw [Expr.kept, Expr.kept, hall, hfolded, hnone]
    rfl
  | empty => rfl
  | single =>
    cases hl e' List.mem_cons_self <;> rfl
  | repetition hop => simp at hop
  | distribute hi hf =>
    rw [commonFactor?_of_isAtomic hw.canonical.nodup_keys fun x hx => (hl x hx).isAtomic] at hf
    cases hf

/-- Flattening has the operands of the nested operations, and those that are no such operation. -/
theorem mem_keys_flattened_iff {op : SemigroupOp} (hw : (Expr.nary op terms).WellFormed)
    (hone : ∀ inner, .nary op inner ∈ Bag.keys terms → ∀ entry ∈ inner, entry.2 = 1) :
    x ∈ Bag.keys (Bag.merge (terms.filter fun entry => !isNary op entry.1) (nestedTerms op terms)) ↔
      (∃ inner, .nary op inner ∈ Bag.keys terms ∧ x ∈ Bag.keys inner) ∨
        x ∈ Bag.keys terms ∧ isNary op x = false := by
  have hb := hw.canonical
  have hoperands {y : Expr} : x ∈ operands op y ↔
      ∃ inner, y = .nary op inner ∧ x ∈ Bag.elements inner := by
    cases y with
    | nary op' inner =>
      rw [operands]
      by_cases hop : op' = op <;> simp [hop]
    | constant | symbol | unary | binary | conditional | call => simp [operands]
  rw [← Bag.mem_elements_iff_mem_keys (Bag.canonical_merge _ (Bag.canonical_filter _ hb)),
    (Bag.elements_merge _ _).mem_iff, List.mem_append, (elements_nestedTerms hone).mem_iff,
    List.mem_flatMap, Bag.elements_filter_keys fun y => !isNary op y, List.mem_filter,
    Bag.mem_elements_iff_mem_keys hb, Bool.not_eq_true']
  refine or_congr_left ?_
  constructor
  · rintro ⟨y, hy, hx⟩
    obtain ⟨inner, rfl, hinner⟩ := hoperands.mp hx
    exact ⟨inner, Bag.mem_keys_of_mem_elements hy, Bag.mem_keys_of_mem_elements hinner⟩
  · rintro ⟨inner, hm, hx⟩
    have hinner := (hw.of_mem_children hm).canonical
    exact ⟨_, (Bag.mem_elements_iff_mem_keys hb).mpr hm,
      hoperands.mpr ⟨inner, rfl, (Bag.mem_elements_iff_mem_keys hinner).mpr hx⟩⟩

end Rules

namespace Engine

open Rules Symbolic.Expr

variable {engine : Engine} {levels steps : Nat} {parent : Option Operator} {op : SemigroupOp}
  {terms : Bag} {e n x : Expr} {step : Step}

/-- Where nothing is nested, copies are dropped before all else. -/
theorem after_eq_deduplicated (hd : engine.registry = .default)
    (hw : (Expr.nary .and terms).WellFormed)
    (hflat : ∀ x ∈ Bag.keys terms, x.op? ≠ some (.semigroup .and))
    (hrepeated : ∃ entry ∈ terms, 1 < entry.2)
    (h : engine.rewrite? parent (.nary .and terms) = .ok (some step)) :
    step.after = .nary .and (Bag.ofList (Bag.keys terms)) := by
  obtain ⟨later, hcandidates⟩ : ∃ later, engine.registry.candidates (.semigroup .and) =
      flatten :: idempotent :: later := by
    rw [hd, Registry.candidates_default]
    exact ⟨_, rfl⟩
  have hflatten : flatten.applies ⟨parent, engine.config⟩ (.nary .and terms) = false :=
    List.any_eq_false.mpr fun entry hm => by simp [isNary, hflat _ (List.mem_map_of_mem hm)]
  have hidempotent : idempotent.applies ⟨parent, engine.config⟩ (.nary .and terms) = true := by
    simpa [idempotent, hasRepeated, bag?, Bag.anyEntry] using hrepeated
  rw [rewrite?_eq_find? hd hw rfl, hcandidates, List.find?_cons, hflatten, List.find?_cons,
    hidempotent] at h
  cases h
  rfl

/-- The operands of a conjunction in normal form are leaves. -/
theorem NormalForm.isLeaf (h : engine.NormalForm parent (.nary op terms))
    (hd : engine.registry = .default) (hw : (Expr.nary op terms).WellFormed)
    (hn : (Expr.nary op terms).Nests op) (hx : x ∈ Bag.keys terms) : IsLeaf x := by
  have hreduced : ReducedTerms op terms := h.reduced hd hw
  exact ((nests_nary_iff.mp hn).2 x hx).isLeaf_of_flat (hreduced.flat x hx)

theorem NormalForm.kept_eq (h : engine.NormalForm parent (.nary .and terms))
    (hd : engine.registry = .default) (hc : Conjunction (.nary .and terms)) :
    (Expr.nary .and terms).kept = keptTerms terms :=
  kept_of_reducedTerms (h.reduced hd hc.wellFormed)
    (fun _ hx => h.isLeaf hd hc.wellFormed hc.nests hx)
    (h.atRest hd hc.wellFormed).exists_nonconstant

/-- Flattening finds the same integers, as each nested conjunction keeps those of its operands. -/
theorem keptTerms_flattened (hd : engine.registry = .default) (he : Conjunction (.nary .and terms))
    (hc : ∀ x ∈ Bag.keys terms, engine.NormalForm (some (.semigroup .and)) x) :
    keptTerms (Bag.merge (terms.filter fun entry => !isNary .and entry.1)
      (nestedTerms .and terms)) =
      keptTerms terms := by
  have hinner {inner : Bag} (hm : .nary .and inner ∈ Bag.keys terms) :
      (Expr.nary .and inner).kept = keptTerms inner := (hc _ hm).kept_eq hd (he.of_mem_keys hm)
  have hkeys (x : Expr) :=
    mem_keys_flattened_iff (x := x) he.wellFormed fun inner hm entry hentry =>
    ((hc _ hm).atRest hd (he.of_mem_keys hm).wellFormed).count_eq_one hentry
  refine keptTerms_congr fun v => ?_
  constructor
  · rintro ⟨x, hx, hv⟩
    rcases (hkeys x).mp hx with ⟨inner, hm, hx⟩ | ⟨hx, _⟩
    · exact ⟨_, hm, hinner hm ▸ mem_keptTerms.mpr ⟨x, hx, hv⟩⟩
    · exact ⟨x, hx, hv⟩
  · rintro ⟨y, hy, hv⟩
    cases hn : isNary .and y with
    | true =>
      obtain ⟨inner, rfl⟩ := isNary_iff.mp hn
      rw [hinner hy] at hv
      obtain ⟨x, hx, hv⟩ := mem_keptTerms.mp hv
      exact ⟨x, (hkeys x).mpr (Or.inl ⟨inner, hy, hx⟩), hv⟩
    | false => exact ⟨y, (hkeys y).mpr (Or.inr ⟨hy, hn⟩), hv⟩

section

variable (hd : engine.registry = .default) (he : Conjunction (.nary .and terms))
  (hc : ∀ x ∈ Bag.keys terms, engine.NormalForm (some (.semigroup .and)) x)
  (h : engine.rewrite? parent (.nary .and terms) = .ok (some step))

include hd he hc h

/-- Over normal forms no rewrite leads out of the conjunctions. -/
theorem conjunction_of_rewrite? : Conjunction step.after := by
  have hrewrites := rewrites_of_rewrite? hd h
  refine ⟨hrewrites.wellFormed he.wellFormed, ?_⟩
  rcases nested_or_flat .and terms with hnested | hflat
  · rw [after_eq_flattened hd he.wellFormed hc hnested h]
    refine nests_nary_iff.mpr ⟨rfl, fun x hx => ?_⟩
    rcases mem_keys_flattened hx with hx | ⟨inner, hm, hx⟩
    · exact (he.of_mem_keys hx).nests
    · exact ((he.of_mem_keys hm).of_mem_keys hx).nests
  · have haccords : Accords (.byPlaces engine.config.wordBits fun _ => 1) _ step.after :=
      accords_of_rewrite? hd he.wellFormed hc h
    exact hrewrites.nests he.wellFormed (haccords.defined (he.nests.defined_and_seen_worth _).1)
      fun x hx => (he.of_mem_keys hx).nests.isLeaf_of_flat (hflat x hx)

/-- Nor does one change the integers that are kept, as copies of one are dropped before any are
folded. -/
theorem kept_of_rewrite? (hzero : .int 0 ∉ (Expr.nary .and terms).leaves)
    (hall : step.after.leaves.all isConstant = (Expr.nary .and terms).leaves.all isConstant) :
    step.after.kept = (Expr.nary .and terms).kept := by
  have hb := he.wellFormed.canonical
  rcases nested_or_flat .and terms with hnested | hflat
  · rw [after_eq_flattened hd he.wellFormed hc hnested h] at hall ⊢
    exact kept_nary_congr (keptTerms_flattened hd he hc) hall
  · by_cases hrepeated : ∃ entry ∈ terms, 1 < entry.2
    · rw [after_eq_deduplicated hd he.wellFormed hflat hrepeated h] at hall ⊢
      exact kept_nary_congr (keptTerms_congr fun v => by simp only [Bag.mem_keys_ofList]) hall
    · have hcounts : ∀ entry ∈ terms, entry.2 = 1 := by
        intro entry hm
        have hpos := hb.2 entry hm
        have hle : ¬ 1 < entry.2 := fun hlt => hrepeated ⟨entry, hm, hlt⟩
        omega
      have hleaf : ∀ x ∈ Bag.keys terms, IsLeaf x :=
        fun x hx => (he.of_mem_keys hx).nests.isLeaf_of_flat (hflat x hx)
      exact (rewrites_of_rewrite? hd h).kept he.wellFormed hleaf hcounts
        (fun hm => hzero (mem_leaves_of_mem_keys hb hm List.mem_cons_self)) hall

end

theorem keepsIntegers_of_rewrite? (hd : engine.registry = .default) (hw : e.WellFormed)
    (hc : ∀ c ∈ e.children, engine.NormalForm e.op? c)
    (h : engine.rewrite? parent e = .ok (some step)) :
    KeepsIntegers engine.config.wordBits e step.after := by
  have haccords (env : Assignment) : Accords (.byPlaces engine.config.wordBits env) e step.after :=
    accords_of_rewrite? hd hw hc h
  by_cases ho : e.op? = some (.semigroup .and)
  · obtain ⟨terms, rfl⟩ := isNary_iff.mp (decide_eq_true ho)
    refine ⟨haccords, fun he => conjunction_of_rewrite? hd he hc h, fun he hzero => ?_⟩
    have hafter := conjunction_of_rewrite? hd he hc h
    exact kept_of_rewrite? hd he hc h hzero (leaves_all_eq_of_accords he hafter haccords hzero)
  · have hnone (he : Conjunction e) : False := by
      cases he.nests.isLeaf_of_flat ho <;> cases rewrites_of_rewrite? hd h
    exact ⟨haccords, fun he => (hnone he).elim, fun he => (hnone he).elim⟩

/-- The normal form of nested conjunctions keeps the same integers, unless it is zero. -/
theorem Normalizes.keepsIntegers (h : engine.Normalizes levels parent e n steps)
    (hd : engine.registry = .default) (hw : e.WellFormed) :
    KeepsIntegers engine.config.wordBits e n :=
  h.related_of_default hd hw (compatible_keepsIntegers _) fun _ _ _ hw hc hr =>
    keepsIntegers_of_rewrite? hd hw hc hr

end Engine
end Symbolic
