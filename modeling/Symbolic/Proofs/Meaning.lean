import Symbolic.Proofs.Reading
import Symbolic.Proofs.Total

/-! What an expression stands for in a reading, and when one may stand for another. -/
namespace Symbolic

theorem SemigroupOp.seen_of_agrees {op : SemigroupOp} {v w : Int} (h : op.place.Agrees v w) :
    op.seen w = op.seen v := by
  cases hop : op.isLogical with
  | false =>
    obtain rfl : w = v := by simpa [place, hop, Place.Agrees] using h
    rfl
  | true =>
    have hzero : w = 0 ↔ v = 0 := by simpa [place, hop, Place.Agrees] using h
    rw [seen_of_isLogical hop, seen_of_isLogical hop, truth, truth,
      if_congr (not_congr hzero) rfl rfl]

theorem UnaryOp.apply_of_agrees {op : UnaryOp} {v w : Int} (h : op.place.Agrees v w) :
    op.apply w = op.apply v := by
  cases op with
  | bitNot => exact congrArg (UnaryOp.apply .bitNot) h
  | not => exact if_congr h rfl rfl

namespace Reading

variable {reading : Reading} {op op' : SemigroupOp}

theorem admits_of_isLogical_eq_false (h : op.isLogical = false) (place : Place) :
    reading.admits place op = true := by simp [admits, h]

/-- Among its operands an operation of the same kind is at its place. -/
theorem admits_operand (h : op'.isLogical = op.isLogical) : reading.admits op.place op' = true := by
  cases hop : op.isLogical <;> simp [admits, SemigroupOp.place, h, hop]

end Reading

namespace Expr

section

variable (reading : Reading) (place : Place)

/-- The expression stands for an integer. -/
def Defined (e : Expr) : Prop := (e.read reading place).isSome = true

/-- The integer that the expression stands for, zero where there is none. -/
def worth (e : Expr) : Int := (e.read reading place).getD 0

/-- Wherever the first expression has a value, the second one has the same. -/
def Keeps (e e' : Expr) : Prop :=
  ∀ v, e.read reading place = some v → e'.read reading place = some v

/-- At each place where the first expression has a value, the second one has one that agrees. -/
def Accords (e e' : Expr) : Prop :=
  ∀ place v, e.read reading place = some v → ∃ w, e'.read reading place = some w ∧ place.Agrees v w

end

variable {reading : Reading} {place : Place} {e e' e'' : Expr} {op : SemigroupOp} {terms : Bag}
  {v : Int}

theorem read_eq_some_iff : e.read reading place = some v ↔
    e.Defined reading place ∧ e.worth reading place = v := by
  simp only [Defined, worth]
  cases e.read reading place <;> simp

theorem Defined.read (h : e.Defined reading place) :
    e.read reading place = some (e.worth reading place) :=
  read_eq_some_iff.mpr ⟨h, rfl⟩

theorem defined_of_read (h : e.read reading place = some v) : e.Defined reading place :=
  (read_eq_some_iff.mp h).1

theorem worth_of_read (h : e.read reading place = some v) : e.worth reading place = v :=
  (read_eq_some_iff.mp h).2

@[simp] theorem read_int (v : Int) : (int v).read reading place = some v := rfl

theorem defined_int (v : Int) : (constant (.int v)).Defined reading place := rfl

/-- A value is one at every place. -/
theorem read_anywhere (h : e.read reading .value = some v) (place : Place) :
    e.read reading place = some v := by
  obtain ⟨width, env, strict, sorted⟩ := reading
  exact read_mono Or.inl (fun hplace => by cases hplace) h

theorem Accords.refl (e : Expr) : Accords reading e e := fun place v h => ⟨v, h, .refl place v⟩

theorem Accords.trans (h : Accords reading e e') (h' : Accords reading e' e'') :
    Accords reading e e'' := by
  intro place v hv
  obtain ⟨w, hw, hagrees⟩ := h place v hv
  obtain ⟨x, hx, hagrees'⟩ := h' place w hw
  exact ⟨x, hx, hagrees.trans hagrees'⟩

theorem accords_of_keeps (h : ∀ place, Keeps reading place e e') : Accords reading e e' :=
  fun place v hv => ⟨v, h place v hv, .refl place v⟩

theorem Accords.defined (h : Accords reading e e') (he : e.Defined reading place) :
    e'.Defined reading place := by
  obtain ⟨w, hw, _⟩ := h place _ he.read
  exact defined_of_read hw

theorem readTerms_eq_some_iff {acc : Int} (hacc : op.seen acc = acc) :
    readTerms reading op acc terms = some v ↔ (∀ x ∈ Bag.keys terms, x.Defined reading op.place) ∧
      op.apply acc (op.total ((Bag.elements terms).map (worth reading op.place))) = v := by
  induction terms generalizing acc with
  | nil =>
    have hnil : op.apply acc op.neutral = acc := hacc
    simp [readTerms, Bag.keys, hnil]
  | cons entry rest ih =>
    obtain ⟨x, n⟩ := entry
    have hnext (w : Int) : op.seen (op.applyMany acc w n) = op.applyMany acc w n := by
      rw [SemigroupOp.applyMany_eq hacc, SemigroupOp.seen_apply]
    rw [readTerms, Option.bind_eq_some_iff, Bag.elements_cons, List.map_append, List.map_replicate,
      SemigroupOp.total_append, ← SemigroupOp.apply_assoc, ← SemigroupOp.applyMany_eq hacc]
    constructor
    · rintro ⟨w, hw, hrest⟩
      obtain ⟨hkeys, htotal⟩ := (ih (hnext w)).mp hrest
      rw [worth_of_read hw]
      exact ⟨List.forall_mem_cons.mpr ⟨defined_of_read hw, hkeys⟩, htotal⟩
    · rintro ⟨hkeys, htotal⟩
      obtain ⟨hx, hrest⟩ := List.forall_mem_cons.mp hkeys
      exact ⟨_, Defined.read hx, (ih (hnext _)).mpr ⟨hrest, htotal⟩⟩

/-- A semigroup operation stands for the total of its operands. -/
theorem read_nary_eq_some_iff : (nary op terms).read reading place = some v ↔
    reading.admits place op = true ∧ (∀ x ∈ Bag.keys terms, x.Defined reading op.place) ∧
      op.total ((Bag.elements terms).map (worth reading op.place)) = v := by
  rw [read]
  split
  · next ha =>
    rw [readTerms_eq_some_iff (SemigroupOp.seen_neutral op), SemigroupOp.neutral_apply,
      SemigroupOp.seen_total]
    simp [ha]
  · next ha => simp [ha]

theorem defined_nary_iff : (nary op terms).Defined reading place ↔
    reading.admits place op = true ∧ ∀ x ∈ Bag.keys terms, x.Defined reading op.place := by
  constructor
  · intro hd
    obtain ⟨ha, hkeys, _⟩ := read_nary_eq_some_iff.mp hd.read
    exact ⟨ha, hkeys⟩
  · rintro ⟨ha, hkeys⟩
    exact defined_of_read (read_nary_eq_some_iff.mpr ⟨ha, hkeys, rfl⟩)

theorem worth_nary (hd : (nary op terms).Defined reading place) :
    (nary op terms).worth reading place =
    op.total ((Bag.elements terms).map (worth reading op.place)) :=
  (read_nary_eq_some_iff.mp hd.read).2.2.symm

/-- A semigroup operation keeps its value where all its operands have one and have the same
total. -/
theorem keeps_nary (hkept : reading.admits place op = true →
      (∀ x ∈ Bag.keys terms, x.Defined reading op.place) →
        e.read reading place = some
          (op.total ((Bag.elements terms).map (worth reading op.place)))) :
    Keeps reading place (nary op terms) e := by
  intro v hv
  obtain ⟨ha, hkeys, rfl⟩ := read_nary_eq_some_iff.mp hv
  exact hkept ha hkeys

/-- A multiset with given elements stands for their total. -/
theorem read_nary_of_perm (ha : reading.admits place op = true) (hb : Bag.Canonical terms)
    {es : List Expr} (hperm : (Bag.elements terms).Perm es)
    (hd : ∀ x ∈ es, x.Defined reading op.place) :
    (nary op terms).read reading place = some (op.total (es.map (worth reading op.place))) := by
  refine read_nary_eq_some_iff.mpr ⟨ha, ?_, ?_⟩
  · intro x hx
    exact hd x (hperm.mem_iff.mp ((Bag.mem_elements_iff_mem_keys hb).mpr hx))
  · exact SemigroupOp.total_perm (hperm.map _)

/-- A semigroup operation may be replaced by one over other operands of the same total. -/
theorem keeps_nary_of_perm {terms' : Bag} (hb : Bag.Canonical terms') {es : List Expr}
    (hperm : (Bag.elements terms').Perm es)
    (hes : (∀ x ∈ Bag.keys terms, x.Defined reading op.place) →
      (∀ x ∈ es, x.Defined reading op.place) ∧ op.total (es.map (worth reading op.place)) =
        op.total ((Bag.elements terms).map (worth reading op.place))) :
    Keeps reading place (nary op terms) (nary op terms') := by
  apply keeps_nary
  intro ha hkeys
  obtain ⟨hd, htotal⟩ := hes hkeys
  rw [read_nary_of_perm ha hb hperm hd, htotal]

theorem read_pair (ha : reading.admits place op = true) (hd : e.Defined reading op.place)
    (hd' : e'.Defined reading op.place) : (pair op e e').read reading place =
      some (op.apply (e.worth reading op.place) (e'.worth reading op.place)) := by
  have hboth : ∀ x ∈ [e, e'], x.Defined reading op.place :=
    List.forall_mem_cons.mpr ⟨hd, List.forall_mem_singleton.mpr hd'⟩
  have htotal : op.total [e.worth reading op.place, e'.worth reading op.place] =
      op.apply (e.worth reading op.place) (e'.worth reading op.place) := op.apply_seen _ _
  rw [pair, read_nary_of_perm ha (Bag.canonical_ofList _) (Bag.elements_ofList _) hboth,
    List.map_cons, List.map_cons, List.map_nil, htotal]

variable {f : Expr → Expr}

/-- A semigroup operation sees no difference between operands that agree at their place. -/
theorem keeps_images (h : ∀ x ∈ Bag.keys terms, Accords reading x (f x)) :
    Keeps reading place (nary op terms)
      (nary op (Bag.ofEntries (terms.map fun entry => (f entry.1, entry.2)))) := by
  have hperm := Bag.elements_ofEntries (terms.map fun entry => (f entry.1, entry.2))
  simp only [Bag.elements_map] at hperm
  apply keeps_nary_of_perm (Bag.canonical_ofEntries _) hperm
  intro hkeys
  have himage : ∀ x ∈ Bag.elements terms, (f x).Defined reading op.place ∧
      op.seen ((f x).worth reading op.place) = op.seen (x.worth reading op.place) := by
    intro x hx
    have hkey := Bag.mem_keys_of_mem_elements hx
    obtain ⟨w, hw, hagrees⟩ := h x hkey op.place _ (hkeys x hkey).read
    rw [worth_of_read hw]
    exact ⟨defined_of_read hw, SemigroupOp.seen_of_agrees hagrees⟩
  constructor
  · intro image hi
    obtain ⟨x, hx, rfl⟩ := List.mem_map.mp hi
    exact (himage x hx).1
  · rw [List.map_map]
    exact SemigroupOp.total_congr fun x hx => (himage x hx).2

/-- A node accords with the node over other children, if each of them accords with its own. -/
theorem accords_rebuilt (h : ∀ c ∈ e.children, Accords reading c (f c)) :
    Accords reading e (e.rebuilt f) := by
  simp only [rebuilt]
  split
  · exact .refl e
  · cases e with
    | constant | symbol => exact .refl _
    | nary op terms =>
      rw [withChildren_nary]
      exact accords_of_keeps fun place => keeps_images h
    | unary op arg =>
      intro place v hv
      simp only [read, Option.map_eq_some_iff] at hv
      obtain ⟨a, ha, rfl⟩ := hv
      obtain ⟨b, hb, hagrees⟩ := h arg List.mem_cons_self op.place a ha
      refine ⟨op.apply b, ?_, ?_⟩
      · simp [children, ordered, withChildren, read, hb]
      · rw [UnaryOp.apply_of_agrees hagrees]
        exact .refl _ _
    | binary op lhs rhs =>
      intro place v hv
      simp only [read, Option.bind_eq_some_iff] at hv
      obtain ⟨a, ha, b, hb, hv⟩ := hv
      obtain ⟨a', ha', rfl⟩ := h lhs List.mem_cons_self .value a ha
      obtain ⟨b', hb', rfl⟩ := h rhs (List.mem_cons_of_mem _ List.mem_cons_self) .value b hb
      exact ⟨v, by simp [children, ordered, withChildren, read, ha', hb', hv], .refl _ _⟩
    | conditional test whenTrue whenFalse =>
      intro place v hv
      simp only [read, Option.bind_eq_some_iff] at hv
      obtain ⟨c, hc, hv⟩ := hv
      obtain ⟨c', hc', hzero⟩ := h test (by simp [children, ordered]) .truth c hc
      have htrue := h whenTrue (by simp [children, ordered]) place
      have hfalse := h whenFalse (by simp [children, ordered]) place
      obtain ⟨w, hw, hagrees⟩ := Reading.exists_choose hzero htrue hfalse hv
      exact ⟨w, by simp [children, ordered, withChildren, read, hc', hw], hagrees⟩
    | call callee args =>
      intro place v hv
      cases hv

end Expr
end Symbolic
