import Symbolic.Expr.Leaves
import Symbolic.Proofs.Ground
import Symbolic.Proofs.Reduced

/-! Nested operations of one operator stay so while they are simplified, but that under `+` copies
of a symbol become a multiple of it. -/
namespace Symbolic

namespace Rules

variable {op : SemigroupOp} {terms : Bag}

/-- The operands of a nested operation of the operator. -/
def operands (op : SemigroupOp) : Expr → List Expr
  | .nary inner terms => if inner = op then Bag.elements terms else []
  | _ => []

theorem flatMap_replicate_perm (n : Nat) (es : List Expr) :
    (es.flatMap (List.replicate n)).Perm (List.replicate n es).flatten := by
  induction n with
  | zero => simp
  | succ n ih =>
    have hsplit := List.map_append_flatMap_perm es id (List.replicate n)
    simp only [List.replicate_succ, List.flatten_cons]
    rw [List.map_id] at hsplit
    exact hsplit.symm.trans (ih.append_left es)

theorem nested_or_flat (op : SemigroupOp) (terms : Bag) :
    (∃ entry ∈ terms, isNary op entry.1 = true) ∨
      ∀ x ∈ Bag.keys terms, x.op? ≠ some (.semigroup op) := by
  refine or_iff_not_imp_left.mpr fun hnone x hx ho => hnone ?_
  obtain ⟨entry, hm, rfl⟩ := List.mem_map.mp hx
  exact ⟨entry, hm, decide_eq_true ho⟩

theorem not_nested_of_flat (h : ∀ x ∈ Bag.keys terms, x.op? ≠ some (.semigroup op)) :
    ¬ ∃ entry ∈ terms, isNary op entry.1 = true := by
  rintro ⟨entry, hm, hn⟩
  exact h entry.1 (List.mem_map_of_mem hm) (of_decide_eq_true hn)

/-- Flattening takes the operands of each nested operation, where these occur once. -/
theorem elements_nestedTerms
    (hone : ∀ inner, .nary op inner ∈ Bag.keys terms → ∀ entry ∈ inner, entry.2 = 1) :
    (Bag.elements (nestedTerms op terms)).Perm ((Bag.elements terms).flatMap (operands op)) := by
  induction terms with
  | nil => rfl
  | cons entry rest ih =>
    have hrest := ih fun inner hm => hone inner (List.mem_cons_of_mem _ hm)
    obtain ⟨child, count⟩ := entry
    rw [Bag.elements_cons, List.flatMap_append, List.flatMap_replicate]
    by_cases hn : isNary op child = true
    · obtain ⟨inner, rfl⟩ := isNary_iff.mp hn
      have hexact : ∀ entry ∈ inner, scaledCount entry.2 count = entry.2 * count := by
        intro entry hm
        rw [hone inner List.mem_cons_self entry hm, scaledCount_one]
      rw [nestedTerms_cons_nary, Bag.elements_append, Bag.elements_scaled hexact, operands,
        if_pos rfl]
      exact (flatMap_replicate_perm count (Bag.elements inner)).append hrest
    · have hnone : operands op child = [] := by
        cases child with
        | nary inner terms =>
          rw [operands, if_neg]
          rintro rfl
          exact hn (isNary_iff.mpr ⟨terms, rfl⟩)
        | constant | symbol | unary | binary | conditional | call => rfl
      rw [nestedTerms_cons_other (by simpa using hn), hnone]
      simpa using hrest

end Rules

namespace Expr

/-- No symbol at all, a symbol, or under `+` a product of such a one with others that have no
symbol. -/
inductive Multiple (op : SemigroupOp) : Expr → Prop
  | ground {e : Expr} (h : e.Ground) : Multiple op e
  | symbol (name : String) : Multiple op (.symbol name)
  | product {terms : Bag} {e : Expr} {rest : List Expr} (hop : op = .add) (he : Multiple op e)
      (hrest : ∀ x ∈ rest, x.Ground) (hperm : (Bag.elements terms).Perm (e :: rest)) :
      Multiple op (.nary .mul terms)

/-- Nested operations of one operator over multiples. -/
inductive Combination (op : SemigroupOp) : Expr → Prop
  | multiple {e : Expr} (h : Multiple op e) : Combination op e
  | nested {terms : Bag} (h : ∀ x ∈ Bag.keys terms, Combination op x) :
      Combination op (.nary op terms)

variable {op : SemigroupOp} {terms : Bag} {e e' x : Expr} {rest : List Expr}

theorem Combination.constant (value : Number) : Combination op (.constant value) :=
  .multiple (.ground (ground_constant value))

/-- What is below an operation of the operator is a combination again. -/
theorem Combination.of_mem_keys (hop : op ≠ .mul) (h : Combination op (.nary op terms))
    (hx : x ∈ Bag.keys terms) : Combination op x := by
  cases h with
  | nested h => exact h x hx
  | multiple h =>
    cases h with
    | ground hg => exact .multiple (.ground (ground_nary_iff.mp hg x hx))
    | product => exact (hop rfl).elim

theorem nests_nary_iff {op' : SemigroupOp} :
    (nary op' terms).Nests op ↔ op' = op ∧ ∀ x ∈ Bag.keys terms, x.Nests op := by
  have heverywhere := everywhere_iff (e := nary op' terms) (p := fun x => x.isNodeOf op = true)
  exact heverywhere.trans (and_congr_left' decide_eq_true_iff)

/-- What operations are nested over. -/
inductive IsLeaf : Expr → Prop
  | int (v : Int) : IsLeaf (.int v)
  | symbol (name : String) : IsLeaf (.symbol name)

theorem Nests.isLeaf_of_flat (h : e.Nests op) (hflat : e.op? ≠ some (.semigroup op)) :
    IsLeaf e := by
  have heverywhere : e.Everywhere fun x => x.isNodeOf op = true := h
  have hnode := (everywhere_iff.mp heverywhere).1
  cases e with
  | constant value =>
    cases value with
    | int v => exact .int v
    | float x => cases hnode
  | symbol name => exact .symbol name
  | nary op' terms =>
    obtain rfl : op' = op := of_decide_eq_true hnode
    exact (hflat rfl).elim
  | unary | binary | conditional | call => cases hnode

/-- Nested operations are made of leaves and of operations over nested operations. -/
@[elab_as_elim]
theorem Nests.induction {motive : Expr → Prop} (h : e.Nests op) (leaf : ∀ e, IsLeaf e → motive e)
    (node : ∀ terms, (∀ x ∈ Bag.keys terms, x.Nests op ∧ motive x) → motive (nary op terms)) :
    motive e := by
  induction e using Expr.induction with
  | h e ih =>
    by_cases ho : e.op? = some (.semigroup op)
    · obtain ⟨terms, rfl⟩ := Rules.isNary_iff.mp (decide_eq_true ho)
      have hkeys := (nests_nary_iff.mp h).2
      exact node terms fun x hx => ⟨hkeys x hx, ih x hx (hkeys x hx)⟩
    · exact leaf e (h.isLeaf_of_flat ho)

theorem combination_of_nests (h : e.Nests op) : Combination op e := by
  refine h.induction (fun e hleaf => ?_) fun terms hkeys => .nested fun x hx => (hkeys x hx).2
  cases hleaf with
  | int v => exact .constant _
  | symbol name => exact .multiple (.symbol name)

theorem multiple_of_not_nary (h : Combination op e) (hflat : e.op? ≠ some (.semigroup op)) :
    Multiple op e := by
  cases h with
  | multiple h => exact h
  | nested => exact (hflat rfl).elim

theorem elements_rebuilt (op : SemigroupOp) (terms : Bag) (f : Expr → Expr) :
    ∃ terms', (nary op terms).rebuilt f = .nary op terms' ∧
      (Bag.elements terms').Perm ((Bag.elements terms).map f) := by
  rw [rebuilt]
  split
  · next hsame =>
    refine ⟨terms, rfl, ?_⟩
    have hid : (Bag.elements terms).map f = Bag.elements terms := by
      refine (List.map_congr_left fun x hx => ?_).trans (List.map_id' _)
      exact List.map_inj_left.mp (hsame.trans (List.map_id _).symm) x
        (Bag.mem_keys_of_mem_elements hx)
    rw [hid]
  · rw [withChildren_nary]
    refine ⟨_, rfl, (Bag.elements_ofEntries _).trans ?_⟩
    rw [Bag.elements_map]

/-- What stays ground, a multiple or a combination. -/
structure StaysWithin (op : SemigroupOp) (e e' : Expr) : Prop where
  ground : e.Ground → e'.Ground
  multiple : Multiple op e → Multiple op e'
  combination : Combination op e → Combination op e'

theorem multiple_rebuilt {f : Expr → Expr} (hf : ∀ c ∈ e.children, StaysWithin op c (f c))
    (h : Multiple op e) : Multiple op (e.rebuilt f) := by
  cases h with
  | ground hg => exact .ground (compatible_ground.rebuilt (fun c hc => (hf c hc).ground) hg)
  | symbol name => exact .symbol name
  | @product terms e rest hop he hrest hperm =>
    obtain ⟨terms', hrebuilt, hperm'⟩ := elements_rebuilt .mul terms f
    have hmem (x : Expr) (hx : x ∈ e :: rest) : x ∈ (nary .mul terms).children :=
      Bag.mem_keys_of_mem_elements (hperm.mem_iff.mpr hx)
    rw [hrebuilt]
    refine .product hop ((hf e (hmem e List.mem_cons_self)).multiple he) ?_
      (hperm'.trans (hperm.map f))
    intro image hi
    obtain ⟨x, hx, rfl⟩ := List.mem_map.mp hi
    exact (hf x (hmem x (List.mem_cons_of_mem _ hx))).ground (hrest x hx)

theorem compatible_staysWithin (op : SemigroupOp) : Compatible (StaysWithin op) where
  refl _ := ⟨id, id, id⟩
  trans h h' := ⟨h'.ground ∘ h.ground, h'.multiple ∘ h.multiple, h'.combination ∘ h.combination⟩
  rebuilt {e f} hf :=
    { ground := compatible_ground.rebuilt fun c hc => (hf c hc).ground
      multiple := multiple_rebuilt hf
      combination := fun h => by
        cases h with
        | multiple h => exact .multiple (multiple_rebuilt hf h)
        | @nested terms h =>
          obtain ⟨terms', hrebuilt, _⟩ := elements_rebuilt op terms f
          rw [hrebuilt]
          refine .nested fun x hx => ?_
          have hchild : x ∈ ((nary op terms).rebuilt f).children := by rwa [hrebuilt]
          obtain ⟨original, ho, rfl⟩ := mem_children_rebuilt hchild
          exact (hf original ho).combination (h original ho) }

/-- A symbol with a coefficient. -/
def scaled (coefficient : Number) (name : String) : Expr :=
  .nary .mul [(.constant coefficient, 1), (.symbol name, 1)]

/-- The normal forms of multiples. -/
inductive Monomial (op : SemigroupOp) : Expr → Prop
  | constant (value : Number) : Monomial op (.constant value)
  | symbol (name : String) : Monomial op (.symbol name)
  | scaled (coefficient : Number) (name : String) (hop : op = .add) (hone : coefficient ≠ 1)
      (hzero : coefficient.isZero = false) : Monomial op (scaled coefficient name)

theorem canonical_scaled (coefficient : Number) (name : String) :
    Bag.Canonical [(.constant coefficient, 1), (.symbol name, 1)] := by
  refine Bag.canonical_cons (Nat.le_refl 1) ?_
    (Bag.canonical_cons (Nat.le_refl 1) nofun Bag.canonical_nil)
  intro entry hm
  rw [List.mem_singleton.mp hm]
  rfl

theorem Monomial.exists_symbol {factor : Expr} (h : Monomial op e)
    (hf : factor ∈ Rules.factors .mul e) : ∃ name, factor = .symbol name := by
  cases h with
  | constant => cases hf
  | symbol name => exact ⟨name, List.mem_singleton.mp hf⟩
  | scaled coefficient name =>
    have hsymbol : Rules.factors .mul (Expr.scaled coefficient name) = [.symbol name] := rfl
    rw [hsymbol] at hf
    exact ⟨name, List.mem_singleton.mp hf⟩

/-- Without its symbol a monomial is ground. -/
theorem Monomial.ground_cofactor {name : String} {cofactor : Expr} (h : Monomial op e)
    (hc : Rules.cofactor? .mul (.symbol name) e = some cofactor) : cofactor.Ground := by
  rcases Rules.cofactor?_eq_some hc with ⟨_, rfl⟩ | ⟨terms, rfl, hcontains, rfl⟩
  · exact ground_nary_iff.mpr nofun
  · cases h with
    | scaled coefficient name' =>
      obtain rfl : name' = name := by simpa [Bag.contains] using hcontains
      refine ground_nary_iff.mpr fun x hx => ?_
      simp only [Bag.removeOne, reduceCtorEq, if_false, if_true, Bag.keys] at hx
      rw [List.mem_singleton.mp hx]
      exact ground_constant coefficient

end Expr

namespace Rules

open Symbolic.Expr

variable {op : SemigroupOp} {terms : Bag} {e e' x : Expr} {rest : List Expr} {width : Nat}

theorem operands_of_isConstant (h : e.isConstant = true) : operands op e = [] := by
  obtain ⟨value, rfl⟩ := isConstant_iff.mp h
  rfl

theorem flatMap_factors {inner : SemigroupOp} {es : List Expr} (h : ∀ x ∈ es, x.isAtomic = true) :
    es.flatMap (factors inner) = es.filter fun x => !x.isConstant := by
  induction es with
  | nil => rfl
  | cons x rest ih =>
    have hrest := ih fun y hy => h y (List.mem_cons_of_mem _ hy)
    have hatomic := h x List.mem_cons_self
    rw [List.flatMap_cons, List.filter_cons, hrest]
    cases x with
    | constant | symbol => rfl
    | nary | unary | binary | conditional | call => cases hatomic

/-- Atoms share no factors, if no two of them are the same. -/
theorem commonFactor?_of_isAtomic {inner : SemigroupOp} (hnodup : (Bag.keys terms).Nodup)
    (h : ∀ x ∈ Bag.keys terms, x.isAtomic = true) : commonFactor? inner terms = none := by
  cases hf : commonFactor? inner terms with
  | none => rfl
  | some factor =>
    have hcount := exists_count_of_commonFactor? hf
    rw [flatMap_factors h] at hcount
    have hle := List.nodup_iff_count.mp (hnodup.filter fun x => !x.isConstant) factor
    omega

/-- All factors of a product but one are constants. -/
structure LedBy (terms : Bag) (e : Expr) (rest : List Expr) : Prop where
  not_ground : ¬ e.Ground
  constants : ∀ x ∈ rest, x.isConstant = true
  perm : (Bag.elements terms).Perm (e :: rest)

theorem LedBy.isConstant (h : LedBy terms e rest) : e.isConstant = false := by
  cases hc : e.isConstant with
  | false => rfl
  | true => exact (h.not_ground (ground_of_isConstant hc)).elim

theorem LedBy.rest_ground (h : LedBy terms e rest) : ∀ x ∈ rest, x.Ground :=
  fun x hx => ground_of_isConstant (h.constants x hx)

theorem LedBy.eq_of_mem_keys (h : LedBy terms e rest) (hb : Bag.Canonical terms)
    (hx : x ∈ Bag.keys terms) (hne : x.isConstant = false) : x = e := by
  have hmem := h.perm.mem_iff.mp ((Bag.mem_elements_iff_mem_keys hb).mpr hx)
  rcases List.mem_cons.mp hmem with heq | hrest
  · exact heq
  · rw [h.constants x hrest] at hne
    cases hne

theorem LedBy.multiple_flattened {inner : Bag} (h : LedBy terms (.nary .mul inner) rest)
    (hop : op = .add) (he : Multiple op (.nary .mul inner))
    (hone : ∀ inner, .nary .mul inner ∈ Bag.keys terms → ∀ entry ∈ inner, entry.2 = 1) :
    Multiple op (.nary .mul
      (Bag.merge (terms.filter fun entry => !isNary .mul entry.1) (nestedTerms .mul terms))) := by
  cases he with
  | ground hg => exact (h.not_ground hg).elim
  | @product _ first others _ hfirst hothers hinner =>
    have hnested : (Bag.elements (nestedTerms .mul terms)).Perm (first :: others) := by
      refine (elements_nestedTerms hone).trans ((h.perm.flatMap_right (operands .mul)).trans ?_)
      have hnone : rest.flatMap (operands .mul) = [] :=
        List.flatMap_eq_nil_iff.mpr fun x hx => operands_of_isConstant (h.constants x hx)
      rw [List.flatMap_cons, hnone, List.append_nil]
      exact hinner
    have hremaining :
        (Bag.elements (terms.filter fun entry => !isNary .mul entry.1)).Perm rest := by
      rw [Bag.elements_filter_keys fun x => !isNary .mul x]
      have hkept : rest.filter (fun x => !isNary .mul x) = rest := by
        refine List.filter_eq_self.mpr fun x hx => ?_
        obtain ⟨value, rfl⟩ := isConstant_iff.mp (h.constants x hx)
        rfl
      have hfilter := h.perm.filter fun x => !isNary .mul x
      rw [List.filter_cons_of_neg (by simp [isNary, op?]), hkept] at hfilter
      exact hfilter
    exact .product hop hfirst (List.forall_mem_append.mpr ⟨hothers, h.rest_ground⟩)
      ((Bag.elements_merge _ _).trans (hnested.append hremaining))

theorem LedBy.multiple_folded (h : LedBy terms e rest) (hop : op = .add) (he : Multiple op e)
    (value : Number) : Multiple op (.nary .mul
      (if value = SemigroupOp.identity .mul then terms.filter fun entry => !entry.1.isConstant
      else Bag.insert (.constant value) (terms.filter fun entry => !entry.1.isConstant))) := by
  have hremaining : (Bag.elements (terms.filter fun entry => !entry.1.isConstant)).Perm [e] := by
    rw [Bag.elements_filter_keys fun x => !x.isConstant]
    have hnone : rest.filter (fun x => !x.isConstant) = [] :=
      List.filter_eq_nil_iff.mpr fun x hx => by simp [h.constants x hx]
    have hfilter := h.perm.filter fun x => !x.isConstant
    rw [List.filter_cons_of_pos (by simp [h.isConstant]), hnone] at hfilter
    exact hfilter
  split
  · exact .product hop he (List.forall_mem_nil Ground) hremaining
  · refine .product hop he (List.forall_mem_singleton.mpr (ground_constant value)) ?_
    exact (Bag.elements_insert _ _).trans ((hremaining.cons _).trans (.swap _ _ _))

theorem LedBy.count_eq_one (h : LedBy terms e rest) (hb : Bag.Canonical terms) {entry : Expr × Nat}
    (hm : entry ∈ terms) (hne : entry.1.isConstant = false) : entry.2 = 1 := by
  obtain ⟨x, n⟩ := entry
  obtain rfl : x = e := h.eq_of_mem_keys hb (List.mem_map_of_mem hm) hne
  have habsent : x ∉ rest := fun hx => h.not_ground (h.rest_ground x hx)
  rw [← Bag.count_elements hb hm, h.perm.count_eq, List.count_cons_self,
    List.count_eq_zero.mpr habsent]

/-- A product of constants with a multiple stays a multiple. -/
theorem Rewrites.multiple (h : Rewrites width (.nary .mul terms) e')
    (hw : (Expr.nary .mul terms).WellFormed) (hop : op = .add) (he : Multiple op e)
    (hled : LedBy terms e rest)
    (hone : ∀ inner, .nary .mul inner ∈ Bag.keys terms → ∀ entry ∈ inner, entry.2 = 1) :
    Multiple op e' := by
  cases h with
  | flatten hnested =>
    obtain ⟨entry, hm, hn⟩ := hnested
    obtain ⟨inner, hinner⟩ := isNary_iff.mp hn
    obtain rfl : entry.1 = e :=
      hled.eq_of_mem_keys hw.canonical (List.mem_map_of_mem hm) (by rw [hinner]; rfl)
    rw [hinner] at he hled
    exact hled.multiple_flattened hop he hone
  | idempotent hidempotent => simp at hidempotent
  | shortCircuit | empty => exact .ground (ground_constant _)
  | foldNary => exact hled.multiple_folded hop he _
  | single =>
    have hsame : e :: rest = [e'] := List.perm_singleton.mp hled.perm.symm
    obtain ⟨rfl, _⟩ := List.cons.inj hsame
    exact he
  | repetition _ hrepeated =>
    obtain ⟨entry, hm, hn, hne⟩ := hrepeated
    rw [hled.count_eq_one hw.canonical hm hne] at hn
    exact (Nat.lt_irrefl 1 hn).elim
  | distribute hi => cases hi

theorem multiple_pair (hop : op = .add) (hx : Multiple op x) (hg : e.Ground) :
    Multiple op (.pair .mul x e) :=
  .product hop hx (List.forall_mem_singleton.mpr hg) (Bag.elements_ofList _)

/-- Where nothing is nested, no rewrite leads out of the combinations of multiples. -/
theorem Rewrites.combination (h : Rewrites width (.nary op terms) e')
    (hw : (Expr.nary op terms).WellFormed) (hop : op ≠ .mul)
    (hc : ∀ x ∈ Bag.keys terms, Monomial op x ∧ Multiple op x) : Combination op e' := by
  have hkeys : ∀ x ∈ Bag.keys terms, Combination op x := fun x hx => .multiple (hc x hx).2
  cases h with
  | flatten hnested =>
    obtain ⟨entry, hm, hn⟩ := hnested
    obtain ⟨inner, hinner⟩ := isNary_iff.mp hn
    have hmonomial := (hc entry.1 (List.mem_map_of_mem hm)).1
    rw [hinner] at hmonomial
    cases hmonomial
    exact (hop rfl).elim
  | idempotent => exact .nested fun x hx => hkeys x (Bag.mem_keys_ofList.mp hx)
  | involution =>
    refine .nested fun x hx => hkeys x ?_
    exact Bag.keys_filter_subset _ _ (Bag.mem_keys_ofList.mp hx)
  | shortCircuit | empty => exact .constant _
  | foldNary =>
    refine .nested fun x hx => ?_
    split at hx
    · exact hkeys x (Bag.keys_filter_subset _ _ hx)
    · rcases Bag.mem_keys_of_mem_keys_insert hx with rfl | hx
      · exact .constant _
      · exact hkeys x (Bag.keys_filter_subset _ _ hx)
  | single => exact hkeys e' List.mem_cons_self
  | repetition hor =>
    obtain rfl : op = .add := hor.resolve_right hop
    refine .nested fun x hx => ?_
    obtain ⟨entry, hm, rfl⟩ := List.mem_map.mp (Bag.keys_ofEntries_subset _ hx)
    obtain ⟨original, ho, rfl⟩ := List.mem_map.mp hm
    split
    · exact hkeys _ (List.mem_map_of_mem ho)
    · have hmultiple := (hc original.1 (List.mem_map_of_mem ho)).2
      exact .multiple (multiple_pair rfl hmultiple (ground_constant _))
  | @distribute op inner factor terms hi hf =>
    by_cases hadd : op = .add
    · subst hadd
      cases hi
      obtain ⟨term, hm, hfactor⟩ := exists_mem_factors hf
      obtain ⟨name, rfl⟩ := (hc term hm).1.exists_symbol hfactor
      rw [factored_eq]
      refine .nested fun x hx => ?_
      rcases Bag.mem_keys_of_mem_keys_insert hx with rfl | hx
      · refine .multiple (multiple_pair rfl (.symbol name) (ground_nary_iff.mpr fun y hy => ?_))
        obtain ⟨entry, he, rfl⟩ := List.mem_map.mp (Bag.keys_ofEntries_subset _ hy)
        obtain ⟨original, ho, hsome⟩ := List.mem_filterMap.mp he
        obtain ⟨cofactor, hcofactor, rfl⟩ := Option.map_eq_some_iff.mp hsome
        exact (hc original.1 (List.mem_map_of_mem ho)).1.ground_cofactor hcofactor
      · exact hkeys x (Bag.keys_filter_subset _ _ hx)
    · have hatomic : ∀ x ∈ Bag.keys terms, x.isAtomic = true := by
        intro x hx
        cases (hc x hx).1 with
        | constant | symbol => rfl
        | scaled _ _ h => exact (hadd h).elim
      rw [commonFactor?_of_isAtomic hw.canonical.nodup_keys hatomic] at hf
      cases hf

end Rules

namespace Engine

open Rules Symbolic.Expr

variable {engine : Engine} {levels steps : Nat} {parent : Option Operator} {op : SemigroupOp}
  {terms : Bag} {e n : Expr} {rest : List Expr} {step : Step}

/-- Beside a symbol there is one constant in a product, once. -/
theorem exists_coefficient (h : ReducedTerms .mul terms) {name : String}
    (hperm : (Bag.elements terms).Perm (.symbol name :: rest))
    (hrest : ∀ x ∈ rest, x.isConstant = true) : ∃ value, rest = [.constant value] := by
  rw [Bag.elements_eq_keys h.count_eq_one] at hperm
  have hnodup := (List.nodup_cons.mp (hperm.nodup h.nodup)).2
  have hlength : (Bag.keys terms).length = rest.length + 1 := hperm.length_eq
  have htwo := h.two_le_length
  rw [Bag.keys, List.length_map] at hlength
  have hkey {value : Number} (hm : Expr.constant value ∈ rest) : .constant value ∈ Bag.keys terms :=
    hperm.mem_iff.mpr (List.mem_cons_of_mem _ hm)
  rcases rest with _ | ⟨x, _ | ⟨y, others⟩⟩
  · rw [hlength] at htwo
    cases htwo with
    | step h => cases h
  · obtain ⟨value, rfl⟩ := isConstant_iff.mp (hrest x List.mem_cons_self)
    exact ⟨value, rfl⟩
  · obtain ⟨v, rfl⟩ := isConstant_iff.mp (hrest x List.mem_cons_self)
    obtain ⟨w, rfl⟩ := isConstant_iff.mp (hrest y (List.mem_cons_of_mem _ List.mem_cons_self))
    have hsame : v = w := h.constant_unique v w (hkey List.mem_cons_self)
      (hkey (List.mem_cons_of_mem _ List.mem_cons_self))
    subst hsame
    exact ((List.nodup_cons.mp hnodup).1 List.mem_cons_self).elim

/-- Over normal forms a product with one multiple in it is ground, or led by that. -/
theorem ledBy_of_normalForms (hd : engine.registry = .default)
    (hw : (Expr.nary .mul terms).WellFormed)
    (hc : ∀ x ∈ Bag.keys terms, engine.NormalForm (some (.semigroup .mul)) x)
    (hrest : ∀ x ∈ rest, x.Ground) (hperm : (Bag.elements terms).Perm (e :: rest))
    (hg : ¬ (Expr.nary .mul terms).Ground) : LedBy terms e rest where
  not_ground he := hg (ground_nary_iff.mpr fun x hx => by
    have hmem := hperm.mem_iff.mp ((Bag.mem_elements_iff_mem_keys hw.canonical).mpr hx)
    rcases List.mem_cons.mp hmem with rfl | hx
    · exact he
    · exact hrest x hx)
  constants x hx := by
    have hkey := Bag.mem_keys_of_mem_elements (hperm.mem_iff.mpr (List.mem_cons_of_mem _ hx))
    exact (hc x hkey).isConstant hd (hw.of_mem_children hkey) (hrest x hx)
  perm := hperm

/-- A multiple in normal form is a constant, a symbol, or a symbol with a coefficient. -/
theorem NormalForm.monomial (h : engine.NormalForm parent e) (hd : engine.registry = .default)
    (hw : e.WellFormed) (hm : Multiple op e) : Monomial op e := by
  by_cases hg : e.Ground
  · obtain ⟨value, rfl⟩ := isConstant_iff.mp (h.isConstant hd hw hg)
    exact .constant value
  cases hm with
  | ground he => exact (hg he).elim
  | symbol name => exact .symbol name
  | @product terms e rest hop he hrest hperm =>
    have hreduced : ReducedTerms .mul terms := h.reduced hd hw
    have hled := ledBy_of_normalForms hd hw (normalForm_iff.mp h).2 hrest hperm hg
    have hkey {x : Expr} (hx : x ∈ e :: rest) : x ∈ Bag.keys terms :=
      Bag.mem_keys_of_mem_elements (hperm.mem_iff.mpr hx)
    cases he with
    | ground he => exact (hled.not_ground he).elim
    | product => exact (hreduced.flat _ (hkey List.mem_cons_self) rfl).elim
    | symbol name =>
      obtain ⟨value, rfl⟩ := exists_coefficient hreduced hperm hled.constants
      have hvalue := hkey (List.mem_cons_of_mem _ List.mem_cons_self)
      obtain rfl : terms = [(.constant value, 1), (.symbol name, 1)] :=
        hw.canonical.eq_of_perm (canonical_scaled value name) (hperm.trans (.swap _ _ _))
      exact .scaled value name hop (hreduced.ne_identity value hvalue)
        (Bool.eq_false_iff.mpr (hreduced.not_absorbs value hvalue))

/-- Flattening comes before all else. -/
theorem after_eq_flattened (hd : engine.registry = .default) (hw : (Expr.nary op terms).WellFormed)
    (hc : ∀ x ∈ Bag.keys terms, engine.NormalForm (some (.semigroup op)) x)
    (hnested : ∃ entry ∈ terms, isNary op entry.1 = true)
    (h : engine.rewrite? parent (.nary op terms) = .ok (some step)) :
    step.after = .nary op
      (Bag.merge (terms.filter fun entry => !isNary op entry.1) (nestedTerms op terms)) := by
  obtain ⟨later, hcandidates⟩ : ∃ later,
      engine.registry.candidates (.semigroup op) = [] ++ flatten :: later := by
    rw [hd, Registry.candidates_default]
    cases op <;> exact ⟨_, rfl⟩
  have happlies : flatten.applies ⟨parent, engine.config⟩ (.nary op terms) = true :=
    List.any_eq_true.mpr hnested
  have hrewrite : flatten.rewrite ⟨parent, engine.config⟩ (.nary op terms) = .ok (.nary op
      (Bag.merge (terms.filter fun entry => !isNary op entry.1) (nestedTerms op terms))) := by
    simp only [flatten, Bag.split, List.partition_eq_filter_filter]
    rfl
  have hheavy := fun x hx => (hc x hx).heavy hd (hw.of_mem_children hx)
  have hflatten : Rewrites engine.config.wordBits (.nary op terms) _ := .flatten hnested
  have hlt := hflatten.weight_lt hw hheavy
  have hne : Expr.nary op (Bag.merge (terms.filter fun entry => !isNary op entry.1)
      (nestedTerms op terms)) ≠ .nary op terms := by
    intro hsame
    rw [hsame] at hlt
    exact Nat.lt_irrefl _ hlt
  have hfirst := rewrite?_of_earlier rfl hcandidates (List.forall_mem_nil _) happlies hrewrite hne
  rw [hfirst] at h
  cases h
  rfl

theorem multiple_of_rewrites {width : Nat} (hd : engine.registry = .default) (hw : e.WellFormed)
    (hc : ∀ c ∈ e.children, engine.NormalForm e.op? c) (h : Rewrites width e n)
    (hm : Multiple op e) : Multiple op n := by
  by_cases hg : e.Ground
  · exact .ground (ground_of_rewrites h hd hw hc hg)
  cases hm with
  | ground he => exact (hg he).elim
  | symbol name => cases h
  | product hop he hrest hperm =>
    refine h.multiple hw hop he (ledBy_of_normalForms hd hw hc hrest hperm hg) ?_
    intro inner hm entry hentry
    exact ((hc _ hm).atRest hd (hw.of_mem_children hm)).count_eq_one hentry

/-- Over normal forms no rewrite leads out of the multiples or the combinations. -/
theorem staysWithin_of_rewrite? (hd : engine.registry = .default) (hop : op ≠ .mul)
    (hw : e.WellFormed) (hc : ∀ c ∈ e.children, engine.NormalForm e.op? c)
    (h : engine.rewrite? parent e = .ok (some step)) : StaysWithin op e step.after where
  ground := ground_of_rewrites (rewrites_of_rewrite? hd h) hd hw hc
  multiple := multiple_of_rewrites hd hw hc (rewrites_of_rewrite? hd h)
  combination hcombination := by
    have hrewrites := rewrites_of_rewrite? hd h
    cases hcombination with
    | multiple hm => exact .multiple (multiple_of_rewrites hd hw hc hrewrites hm)
    | @nested terms hkeys =>
      rcases nested_or_flat op terms with hnested | hflat
      · rw [after_eq_flattened hd hw hc hnested h]
        refine .nested fun x hx => ?_
        rcases mem_keys_flattened hx with hx | ⟨inner, hm, hx⟩
        · exact hkeys x hx
        · exact (hkeys _ hm).of_mem_keys hop hx
      · refine hrewrites.combination hw hop fun x hx => ?_
        have hm := multiple_of_not_nary (hkeys x hx) (hflat x hx)
        exact ⟨(hc x hx).monomial hd (hw.of_mem_children hx) hm, hm⟩

/-- The normal form of a combination is one. -/
theorem Normalizes.combination (h : engine.Normalizes levels parent e n steps)
    (hd : engine.registry = .default) (hop : op ≠ .mul) (hw : e.WellFormed)
    (hc : Combination op e) :
    Combination op n :=
  (h.related_of_default hd hw (compatible_staysWithin op) fun _ _ _ hw hc hr =>
    staysWithin_of_rewrite? hd hop hw hc hr).combination hc

end Engine
end Symbolic
