import Symbolic.Proofs.Factors

/-! What the default rules keep of an expression: canonical multisets, and the operators that occur
but for a few. -/
namespace Symbolic

namespace Rules

/-- An operator that a rewrite may bring in where another one stands. -/
inductive Introduces : Operator → Operator → Prop
  | product : Introduces (.semigroup .add) (.semigroup .mul)
  | power : Introduces (.semigroup .mul) (.binary .pow)
  | inner {op inner : SemigroupOp} (h : innerOf? op = some inner) :
      Introduces (.semigroup op) (.semigroup inner)
  | comparison {op op' : BinaryOp} (h : op.isComparison = true) (h' : op'.isComparison = true) :
      Introduces (.binary op) (.binary op')
  | sum {op : BinaryOp} (h : op.isComparison = true) : Introduces (.binary op) (.semigroup .add)
  | negation {op : BinaryOp} (h : op.isComparison = true) : Introduces (.binary op) (.unary .not)

/-- With an operator all that rewrites may bring in for it. -/
def Closed (p : Operator → Prop) : Prop := ∀ op op', Introduces op op' → p op → p op'

/-- A node with a canonical multiset, if it has one, and with an operator of a given kind. -/
def Legal (p : Operator → Prop) (e : Expr) : Prop :=
  (∀ bag ∈ e.bag?, Bag.Canonical bag) ∧ ∀ op ∈ e.op?, p op

variable {p : Operator → Prop} {op inner : SemigroupOp} {terms : Bag} {e e' x : Expr} {width : Nat}

theorem everywhere_legal_nary_iff :
    (Expr.nary op terms).Everywhere (Legal p) ↔ Bag.Canonical terms ∧ p (.semigroup op) ∧
      ∀ x ∈ Bag.keys terms, x.Everywhere (Legal p) := by
  rw [Expr.everywhere_iff, Legal]
  constructor
  · rintro ⟨⟨hbag, hop⟩, hc⟩
    exact ⟨hbag terms rfl, hop _ rfl, hc⟩
  · rintro ⟨hbag, hop, hc⟩
    refine ⟨⟨?_, ?_⟩, hc⟩
    · rintro bag ⟨⟩
      exact hbag
    · rintro op ⟨⟩
      exact hop

theorem everywhere_legal_constant (value : Number) :
    (Expr.constant value).Everywhere (Legal p) := by
  rw [Expr.everywhere_iff]
  exact ⟨⟨nofun, nofun⟩, nofun⟩

theorem everywhere_legal_unary_iff {op : UnaryOp} :
    (Expr.unary op e).Everywhere (Legal p) ↔ p (.unary op) ∧ e.Everywhere (Legal p) := by
  rw [Expr.everywhere_iff, Legal]
  simp [Expr.bag?, Expr.op?, Expr.children, Expr.ordered]

theorem everywhere_legal_binary_iff {op : BinaryOp} :
    (Expr.binary op e e').Everywhere (Legal p) ↔
      p (.binary op) ∧ e.Everywhere (Legal p) ∧ e'.Everywhere (Legal p) := by
  rw [Expr.everywhere_iff, Legal]
  simp [Expr.bag?, Expr.op?, Expr.children, Expr.ordered]

/-- What `Legal` says of the children is enough where a multiset is built anew. -/
theorem everywhere_legal_of_keys {bag : Bag} (h : (Expr.nary op terms).Everywhere (Legal p))
    (hb : Bag.Canonical bag) (hk : Bag.keys bag ⊆ Bag.keys terms) :
    (Expr.nary op bag).Everywhere (Legal p) := by
  obtain ⟨_, hop, hc⟩ := everywhere_legal_nary_iff.mp h
  exact everywhere_legal_nary_iff.mpr ⟨hb, hop, fun x hx => hc x (hk hx)⟩

theorem everywhere_legal_filter (q : Expr × Nat → Bool)
    (h : (Expr.nary op terms).Everywhere (Legal p)) :
    (Expr.nary op (terms.filter q)).Everywhere (Legal p) :=
  everywhere_legal_of_keys h (Bag.canonical_filter q (everywhere_legal_nary_iff.mp h).1)
    (Bag.keys_filter_subset q terms)

theorem everywhere_legal_insert (h : (Expr.nary op terms).Everywhere (Legal p))
    (hx : x.Everywhere (Legal p)) : (Expr.nary op (Bag.insert x terms)).Everywhere (Legal p) := by
  obtain ⟨hb, hop, hc⟩ := everywhere_legal_nary_iff.mp h
  refine everywhere_legal_nary_iff.mpr ⟨Bag.canonical_insert x hb, hop, fun y hy => ?_⟩
  rcases Bag.mem_keys_of_mem_keys_insert hy with rfl | hy
  · exact hx
  · exact hc y hy

theorem everywhere_legal_ofEntries (hop : p (.semigroup op)) {entries : List (Expr × Nat)}
    (h : ∀ entry ∈ entries, entry.1.Everywhere (Legal p)) :
    (Expr.nary op (Bag.ofEntries entries)).Everywhere (Legal p) := by
  refine everywhere_legal_nary_iff.mpr ⟨Bag.canonical_ofEntries entries, hop, fun x hx => ?_⟩
  obtain ⟨entry, hm, rfl⟩ := List.mem_map.mp (Bag.keys_ofEntries_subset entries hx)
  exact h entry hm

theorem everywhere_legal_ofList (hop : p (.semigroup op)) {es : List Expr}
    (h : ∀ e ∈ es, e.Everywhere (Legal p)) :
    (Expr.nary op (Bag.ofList es)).Everywhere (Legal p) :=
  everywhere_legal_nary_iff.mpr
    ⟨Bag.canonical_ofList es, hop, fun x hx => h x (Bag.mem_keys_ofList.mp hx)⟩

theorem exists_of_mem_keys_nestedTerms {entries : List (Expr × Nat)}
    (h : x ∈ Bag.keys (nestedTerms op entries)) :
    ∃ terms count, (Expr.nary op terms, count) ∈ entries ∧ x ∈ Bag.keys terms := by
  induction entries with
  | nil => exact nomatch h
  | cons entry rest ih =>
    have later (h : x ∈ Bag.keys (nestedTerms op rest)) :
        ∃ terms count, (Expr.nary op terms, count) ∈ entry :: rest ∧ x ∈ Bag.keys terms := by
      obtain ⟨terms, count, hm, hx⟩ := ih h
      exact ⟨terms, count, List.mem_cons_of_mem _ hm, hx⟩
    obtain ⟨child, count⟩ := entry
    cases hn : isNary op child with
    | true =>
      obtain ⟨terms, rfl⟩ := isNary_iff.mp hn
      simp only [nestedTerms_cons_nary, Bag.keys, List.map_append, List.mem_append,
        List.map_map] at h
      rcases h with h | h
      · exact ⟨terms, count, List.mem_cons_self, h⟩
      · exact later h
    | false =>
      rw [nestedTerms_cons_other hn] at h
      exact later h

theorem mem_keys_flattened
    (h : x ∈ Bag.keys (Bag.merge (terms.filter fun entry => !isNary op entry.1)
      (nestedTerms op terms))) :
    x ∈ Bag.keys terms ∨ ∃ inner, .nary op inner ∈ Bag.keys terms ∧ x ∈ Bag.keys inner := by
  rcases List.mem_append.mp (Bag.keys_merge_subset _ _ h) with hx | hx
  · obtain ⟨inner, count, hm, hx⟩ := exists_of_mem_keys_nestedTerms hx
    exact Or.inr ⟨inner, List.mem_map_of_mem hm, hx⟩
  · exact Or.inl (Bag.keys_filter_subset _ _ hx)

theorem everywhere_legal_flattened (h : (Expr.nary op terms).Everywhere (Legal p)) :
    (Expr.nary op (Bag.merge (terms.filter fun entry => !isNary op entry.1)
      (nestedTerms op terms))).Everywhere (Legal p) := by
  obtain ⟨hb, hop, hc⟩ := everywhere_legal_nary_iff.mp h
  refine everywhere_legal_nary_iff.mpr
    ⟨Bag.canonical_merge _ (Bag.canonical_filter _ hb), hop, fun x hx => ?_⟩
  rcases mem_keys_flattened hx with hx | ⟨inner, hm, hx⟩
  · exact hc x hx
  · exact (everywhere_legal_nary_iff.mp (hc _ hm)).2.2 x hx

theorem everywhere_legal_removeOne (h : (Expr.nary op terms).Everywhere (Legal p)) :
    (Expr.nary op (Bag.removeOne x terms)).Everywhere (Legal p) :=
  everywhere_legal_of_keys h (Bag.canonical_removeOne x (everywhere_legal_nary_iff.mp h).1)
    (Bag.keys_removeOne_subset x terms)

theorem everywhere_legal_negatedTerm (h : e.Everywhere (Legal p)) (hn : negatedTerm? e = some e') :
    e'.Everywhere (Legal p) := by
  rcases negatedTerm?_eq_some hn with ⟨value, _, rfl, rfl⟩ | ⟨terms, value, _, _, rfl, rfl⟩
  · exact everywhere_legal_constant _
  · exact everywhere_legal_insert (everywhere_legal_removeOne h) (everywhere_legal_constant _)

theorem everywhere_legal_summands (h : e.Everywhere (Legal p)) (ha : p (.semigroup .add)) :
    (Expr.nary .add (summands e)).Everywhere (Legal p) := by
  have alone : (Expr.nary .add [(e, 1)]).Everywhere (Legal p) := by
    refine everywhere_legal_nary_iff.mpr ⟨?_, ha, fun x hx => ?_⟩
    · exact Bag.canonical_cons (Nat.le_refl 1) nofun Bag.canonical_nil
    · rwa [List.mem_singleton.mp hx]
  cases e with
  | nary op terms =>
    cases op with
    | add => exact h
    | mul | bitAnd | bitOr | bitXor | and | or => exact alone
  | constant | symbol | unary | binary | conditional | call => exact alone

theorem everywhere_legal_negativeTerms (h : (Expr.nary .add terms).Everywhere (Legal p)) :
    (Expr.nary .add (negativeTerms terms)).Everywhere (Legal p) := by
  obtain ⟨_, hop, hc⟩ := everywhere_legal_nary_iff.mp h
  apply everywhere_legal_ofEntries hop
  intro entry hm
  obtain ⟨⟨term, count⟩, ht, hf⟩ := List.mem_filterMap.mp hm
  obtain ⟨flipped, hflipped, rfl⟩ := Option.map_eq_some_iff.mp hf
  exact everywhere_legal_negatedTerm (hc term (List.mem_map_of_mem ht)) hflipped

theorem everywhere_legal_cofactor (h : e.Everywhere (Legal p)) (hi : p (.semigroup inner))
    (hc : cofactor? inner x e = some e') : e'.Everywhere (Legal p) := by
  rcases cofactor?_eq_some hc with ⟨_, rfl⟩ | ⟨terms, rfl, _, rfl⟩
  · exact everywhere_legal_nary_iff.mpr ⟨Bag.canonical_nil, hi, nofun⟩
  · exact everywhere_legal_removeOne h

theorem everywhere_legal_factored (h : (Expr.nary op terms).Everywhere (Legal p))
    (hi : p (.semigroup inner)) (hx : x.Everywhere (Legal p)) :
    (factored op inner x terms).Everywhere (Legal p) := by
  obtain ⟨_, hop, hc⟩ := everywhere_legal_nary_iff.mp h
  simp only [factored_eq]
  refine everywhere_legal_insert (everywhere_legal_filter _ h) (everywhere_legal_ofList hi ?_)
  intro e he
  rcases List.mem_cons.mp he with rfl | he
  · exact hx
  · rw [List.mem_singleton.mp he]
    apply everywhere_legal_ofEntries hop
    intro entry hm
    obtain ⟨⟨term, count⟩, ht, hf⟩ := List.mem_filterMap.mp hm
    obtain ⟨cofactor, hcofactor, rfl⟩ := Option.map_eq_some_iff.mp hf
    exact everywhere_legal_cofactor (hc term (List.mem_map_of_mem ht)) hi hcofactor

theorem everywhere_legal_factor (h : e.Everywhere (Legal p)) (hx : x ∈ factors inner e) :
    x.Everywhere (Legal p) := by
  rcases (mem_factors hx).2 with rfl | ⟨terms, rfl, hm⟩
  · exact h
  · exact (everywhere_legal_nary_iff.mp h).2.2 x hm

theorem everywhere_legal_grouped (hp : Closed p) (hop : op = .add ∨ op = .mul)
    (h : p (.semigroup op)) (hx : x.Everywhere (Legal p)) (count : Nat) :
    (grouped op x count).Everywhere (Legal p) := by
  have hcount : (Expr.int count).Everywhere (Legal p) := everywhere_legal_constant _
  rcases hop with rfl | rfl
  · apply everywhere_legal_ofList (hp _ _ .product h)
    intro e he
    rcases List.mem_cons.mp he with rfl | he
    · exact hx
    · rwa [List.mem_singleton.mp he]
  · exact everywhere_legal_binary_iff.mpr ⟨hp _ _ .power h, hx, hcount⟩

theorem everywhere_legal_negatedComparison {op : BinaryOp} (hp : Closed p)
    (h : (Expr.binary op e e').Everywhere (Legal p)) (hx : negatedComparison? e e' op = some x) :
    x.Everywhere (Legal p) := by
  obtain ⟨hop, hl, hr⟩ := everywhere_legal_binary_iff.mp h
  cases op with
  | eq | ne =>
    cases hx
    exact everywhere_legal_binary_iff.mpr ⟨hp _ _ (.comparison rfl rfl) hop, hl, hr⟩
  | lt | le =>
    cases hx
    exact everywhere_legal_binary_iff.mpr ⟨hp _ _ (.comparison rfl rfl) hop, hr, hl⟩
  | floorDiv | trueDiv | mod | shr | pow | rol | ror => cases hx

theorem everywhere_legal_of_againstZero {op : BinaryOp} {lhs rhs : Expr}
    (h : (Expr.binary op lhs rhs).Everywhere (Legal p)) (hz : AgainstZero x lhs rhs) :
    x.Everywhere (Legal p) := by
  obtain ⟨_, hl, hr⟩ := everywhere_legal_binary_iff.mp h
  rcases hz with ⟨rfl, _⟩ | ⟨_, rfl⟩
  · exact hl
  · exact hr

theorem everywhere_legal_branches {test whenTrue whenFalse : Expr}
    (h : (Expr.conditional test whenTrue whenFalse).Everywhere (Legal p)) :
    whenTrue.Everywhere (Legal p) ∧ whenFalse.Everywhere (Legal p) := by
  have hc := (Expr.everywhere_iff.mp h).2
  exact ⟨hc whenTrue (by simp [Expr.children, Expr.ordered]),
    hc whenFalse (by simp [Expr.children, Expr.ordered])⟩

/-- A rewrite brings in no operator that is not called for, and no multiset that is not
canonical. -/
theorem Rewrites.legal (hp : Closed p) (h : Rewrites width e e') (he : e.Everywhere (Legal p)) :
    e'.Everywhere (Legal p) := by
  cases h with
  | flatten => exact everywhere_legal_flattened he
  | idempotent =>
    obtain ⟨_, hop, hc⟩ := everywhere_legal_nary_iff.mp he
    exact everywhere_legal_ofList hop hc
  | involution =>
    obtain ⟨_, hop, hc⟩ := everywhere_legal_nary_iff.mp he
    apply everywhere_legal_ofList hop
    intro x hx
    exact hc x (Bag.keys_filter_subset _ _ hx)
  | foldUnary | foldBinary | shortCircuit | empty | selfCompare => exact everywhere_legal_constant _
  | foldNary =>
    have hrest := everywhere_legal_filter (fun entry => !entry.1.isConstant) he
    split
    · exact hrest
    · exact everywhere_legal_insert hrest (everywhere_legal_constant _)
  | single => exact (everywhere_legal_nary_iff.mp he).2.2 e' List.mem_cons_self
  | constantCondition =>
    obtain ⟨htrue, hfalse⟩ := everywhere_legal_branches he
    split
    · exact htrue
    · exact hfalse
  | negatedCompare hx =>
    exact everywhere_legal_negatedComparison hp (everywhere_legal_unary_iff.mp he).2 hx
  | subtractRight hop =>
    obtain ⟨hcompare, hsum, _⟩ := everywhere_legal_binary_iff.mp he
    have hterms := everywhere_legal_summands hsum (hp _ _ (.sum hop) hcompare)
    exact everywhere_legal_binary_iff.mpr ⟨hcompare, everywhere_legal_filter _ hterms,
      everywhere_legal_negativeTerms hterms⟩
  | subtractLeft hop =>
    obtain ⟨hcompare, _, hsum⟩ := everywhere_legal_binary_iff.mp he
    have hterms := everywhere_legal_summands hsum (hp _ _ (.sum hop) hcompare)
    exact everywhere_legal_binary_iff.mpr ⟨hcompare, everywhere_legal_negativeTerms hterms,
      everywhere_legal_filter _ hterms⟩
  | equalsZero hz =>
    have hnot := hp _ _ (.negation rfl) (everywhere_legal_binary_iff.mp he).1
    exact everywhere_legal_unary_iff.mpr ⟨hnot, everywhere_legal_of_againstZero he hz⟩
  | differsFromZero hz =>
    have hnot := hp _ _ (.negation rfl) (everywhere_legal_binary_iff.mp he).1
    exact everywhere_legal_unary_iff.mpr ⟨hnot,
      everywhere_legal_unary_iff.mpr ⟨hnot, everywhere_legal_of_againstZero he hz⟩⟩
  | repetition hor =>
    obtain ⟨_, hop, hc⟩ := everywhere_legal_nary_iff.mp he
    apply everywhere_legal_ofEntries hop
    intro entry hm
    obtain ⟨original, ho, rfl⟩ := List.mem_map.mp hm
    have hx := hc original.1 (List.mem_map_of_mem ho)
    split
    · exact hx
    · exact everywhere_legal_grouped hp hor hop hx original.2
  | distribute hi hf =>
    obtain ⟨_, hop, hc⟩ := everywhere_legal_nary_iff.mp he
    obtain ⟨term, hm, hfactor⟩ := exists_mem_factors hf
    exact everywhere_legal_factored he (hp _ _ (.inner hi) hop)
      (everywhere_legal_factor (hc term hm) hfactor)

theorem wellFormed_iff_legal : e.WellFormed ↔ e.Everywhere (Legal fun _ => True) := by
  have same (e : Expr) : (∀ bag ∈ e.bag?, Bag.Canonical bag) ↔ Legal (fun _ => True) e := by
    simp [Legal]
  apply forall₂_congr
  intro occurrence _
  exact same occurrence.2

theorem wellFormed_of_legal (h : e.Everywhere (Legal p)) : e.WellFormed :=
  fun occurrence hm => (h occurrence hm).1

theorem canonical_summands (hw : e.WellFormed) :
    Bag.Canonical (summands e) ∧ ∀ x ∈ Bag.keys (summands e), x.WellFormed := by
  have h := everywhere_legal_summands (wellFormed_iff_legal.mp hw) trivial
  obtain ⟨hb, _, hc⟩ := everywhere_legal_nary_iff.mp h
  exact ⟨hb, fun x hx => wellFormed_iff_legal.mpr (hc x hx)⟩

theorem Rewrites.wellFormed (h : Rewrites width e e') (he : e.WellFormed) : e'.WellFormed :=
  wellFormed_iff_legal.mpr (h.legal (fun _ _ _ _ => trivial) (wellFormed_iff_legal.mp he))

theorem everywhere_legal_rebuilt {f : Expr → Expr} (h : e.Everywhere (Legal p))
    (hf : ∀ c ∈ e.children, (f c).Everywhere (Legal p)) : (e.rebuilt f).Everywhere (Legal p) := by
  obtain ⟨⟨_, hop⟩, _⟩ := Expr.everywhere_iff.mp h
  have hw : (e.rebuilt f).WellFormed :=
    Expr.wellFormed_rebuilt (wellFormed_of_legal h) fun c hc => wellFormed_of_legal (hf c hc)
  refine Expr.everywhere_iff.mpr ⟨⟨(Expr.wellFormed_iff.mp hw).1, ?_⟩, ?_⟩
  · rwa [Expr.op?_rebuilt]
  · intro c hc
    obtain ⟨original, ho, rfl⟩ := Expr.mem_children_rebuilt hc
    exact hf original ho

end Rules
end Symbolic
