import Mathlib.Data.Finsupp.Order
import Symbolic.Proofs.Entries

/-! Multisets as finite maps from expressions to multiplicities: every sequence of exact operations
on a multiset does to its map what addition, truncated decrement and restriction do. -/
namespace Symbolic.Bag

variable {e key : Expr} {n : Nat} {bag bag' : Bag} {es : List Expr} {entries : List (Expr × Nat)}

/-- One operation on a multiset. A partition goes on with either of its parts. -/
inductive Edit
  | insert (e : Expr)
  | insertMany (e : Expr) (count : Nat)
  | removeOne (e : Expr)
  | extend (es : List Expr)
  | merge (entries : List (Expr × Nat))
  | matching (p : Expr → Nat → Bool)
  | rest (p : Expr → Nat → Bool)

def Edit.apply : Edit → Bag → Bag
  | .insert e, bag => Bag.insert e bag
  | .insertMany e count, bag => Bag.insertMany e count bag
  | .removeOne e, bag => Bag.removeOne e bag
  | .extend es, bag => Bag.extend bag es
  | .merge entries, bag => Bag.merge bag entries
  | .matching p, bag => (Bag.split bag p).1
  | .rest p, bag => (Bag.split bag p).2

/-- The multiset that a sequence of operations makes of the empty one. -/
def after (edits : List Edit) : Bag := edits.foldl (fun bag edit => edit.apply bag) []

/-- The entries of a map that satisfy a predicate of the key and its multiplicity. -/
noncomputable def restrict (p : Expr → Nat → Bool) (f : Expr →₀ Nat) : Expr →₀ Nat :=
  f.filter fun e => p e (f e) = true

noncomputable def added (entries : List (Expr × Nat)) : Expr →₀ Nat :=
  (entries.map fun entry => Finsupp.single entry.1 entry.2).sum

/-- What an operation does to a map of multiplicities. -/
noncomputable def Edit.act : Edit → (Expr →₀ Nat) → (Expr →₀ Nat)
  | .insert e, f => f + Finsupp.single e 1
  | .insertMany e count, f => f + Finsupp.single e count
  | .removeOne e, f => f - Finsupp.single e 1
  | .extend es, f => f + (es.map fun e => Finsupp.single e 1).sum
  | .merge entries, f => f + added entries
  | .matching p, f => restrict p f
  | .rest p, f => restrict (fun e n => !p e n) f

noncomputable def multiplicitiesAfter (edits : List Edit) : Expr →₀ Nat :=
  edits.foldl (fun f edit => edit.act f) 0

theorem mem_keys_of_count_ne_zero (h : count e bag ≠ 0) : e ∈ keys bag := by
  induction bag with
  | nil => exact (h rfl).elim
  | cons entry rest ih =>
    obtain ⟨key, n⟩ := entry
    by_cases he : e = key
    · exact List.mem_cons.mpr (Or.inl he)
    · simp only [count, he, if_false] at h
      exact List.mem_cons_of_mem _ (ih h)

/-- The map of a multiset. -/
noncomputable def multiplicities (bag : Bag) : Expr →₀ Nat :=
  Finsupp.onFinset (keys bag).toFinset (fun e => count e bag) fun _ h =>
    List.mem_toFinset.mpr (mem_keys_of_count_ne_zero h)

@[simp] theorem multiplicities_apply (bag : Bag) (e : Expr) : multiplicities bag e = count e bag :=
  rfl

theorem Canonical.mem_iff_count (h : Canonical bag) : (e, n) ∈ bag ↔ n ≠ 0 ∧ count e bag = n := by
  rw [mem_iff_count_elements h, h.count_eq]

theorem Canonical.mem_keys_iff (h : Canonical bag) : e ∈ keys bag ↔ count e bag ≠ 0 := by
  refine ⟨fun he => ?_, mem_keys_of_count_ne_zero⟩
  rw [h.count_eq, ← Nat.pos_iff_ne_zero, List.count_pos_iff]
  exact (mem_elements_iff_mem_keys h).mpr he

theorem contains_iff_mem_keys : contains e bag = true ↔ e ∈ keys bag := by
  simp [contains, keys]

theorem single?_eq_some_iff : Entries.single? bag = some (e, n) ↔ bag = [(e, n)] := by
  cases bag with
  | nil => simp [Entries.single?]
  | cons entry rest => cases rest <;> simp [Entries.single?]

theorem total_eq_sum (bag : Bag) : total bag = (bag.map Prod.snd).sum := by
  induction bag with
  | nil => rfl
  | cons entry rest ih => rw [total, ih, List.map_cons, List.sum_cons]

theorem Canonical.entries_eq (h : Canonical bag) :
    bag = (keys bag).map fun e => (e, count e bag) := by
  rw [keys, List.map_map]
  refine (List.map_id bag).symm.trans (List.map_congr_left fun entry hm => ?_)
  exact Prod.ext rfl ((h.mem_iff_count.mp hm).2.symm)

theorem Canonical.support_multiplicities (h : Canonical bag) :
    (multiplicities bag).support = (keys bag).toFinset := by
  ext e
  rw [Finsupp.mem_support_iff, multiplicities_apply, List.mem_toFinset, h.mem_keys_iff]

theorem Canonical.total_eq (h : Canonical bag) :
    total bag = (multiplicities bag).sum fun _ n => n := by
  rw [Finsupp.sum, h.support_multiplicities, List.sum_toFinset _ h.nodup_keys, total_eq_sum]
  conv_lhs => rw [h.entries_eq, List.map_map]
  rfl

theorem count_singleton : count key [(e, n)] = Finsupp.single e n key := by
  rw [Finsupp.single_apply, count, count]
  simp only [eq_comm]

theorem Canonical.single?_iff (h : Canonical bag) :
    Entries.single? bag = some (e, n) ↔ n ≠ 0 ∧ multiplicities bag = Finsupp.single e n := by
  rw [single?_eq_some_iff]
  constructor
  · rintro rfl
    refine ⟨Nat.pos_iff_ne_zero.mp (h.2 (e, n) List.mem_cons_self), ?_⟩
    ext key
    exact count_singleton
  · rintro ⟨hn, hf⟩
    have hsingle : Canonical [(e, n)] := canonical_cons (by omega) (by simp [keys]) canonical_nil
    refine (h.eq_iff_count hsingle).mpr fun key => ?_
    rw [← multiplicities_apply, hf, count_singleton]

theorem Canonical.any_iff (h : Canonical bag) (p : Expr → Nat → Bool) :
    Entries.any bag p = true ↔ ∃ e, count e bag ≠ 0 ∧ p e (count e bag) = true := by
  rw [Entries.any, List.any_eq_true]
  constructor
  · rintro ⟨⟨e, n⟩, hm, hp⟩
    obtain ⟨hn, rfl⟩ := h.mem_iff_count.mp hm
    exact ⟨e, hn, hp⟩
  · rintro ⟨e, hn, hp⟩
    exact ⟨(e, count e bag), h.mem_iff_count.mpr ⟨hn, rfl⟩, hp⟩

theorem Canonical.count_insertMany (h : Canonical bag) :
    count key (insertMany e n bag) = count key bag + Finsupp.single e n key := by
  rw [(canonical_insertMany e n h).count_eq, (elements_insertMany e n bag).count_eq,
    List.count_append, List.count_replicate, h.count_eq, Finsupp.single_apply, Nat.add_comm]
  simp only [beq_iff_eq]

theorem added_apply (entries : List (Expr × Nat)) (e : Expr) :
    added entries e = inserted e entries := by
  induction entries with
  | nil => rfl
  | cons entry rest ih =>
    rw [inserted, ← ih, added, List.map_cons, List.sum_cons, Finsupp.add_apply,
      Finsupp.single_apply]
    rfl

theorem Canonical.count_merge (h : Canonical bag) (entries : List (Expr × Nat)) :
    count e (merge bag entries) = count e bag + added entries e := by
  rw [(canonical_merge entries h).count_eq, (elements_merge bag entries).count_eq,
    List.count_append, count_elements_eq_inserted, h.count_eq, added_apply, Nat.add_comm]

theorem extend_eq_merge (bag : Bag) (es : List Expr) :
    extend bag es = merge bag (es.map fun e => (e, 1)) := by
  rw [merge, List.foldl_map]
  rfl

theorem removeOne_of_not_contains (h : contains e bag = false) : removeOne e bag = bag := by
  induction bag with
  | nil => rfl
  | cons entry rest ih =>
    simp only [contains, List.any_cons, Bool.or_eq_false_iff, decide_eq_false_iff_not] at h
    rw [removeOne, if_neg (Ne.symm h.1), ih h.2]

theorem Canonical.count_removeOne (h : Canonical bag) :
    count key (removeOne e bag) = count key bag - Finsupp.single e 1 key := by
  rw [Finsupp.single_apply]
  cases hc : contains e bag with
  | true =>
    have hcount := (elements_removeOne h.2 hc).count_eq key
    rw [List.count_cons, ← h.count_eq, ← (canonical_removeOne e h).count_eq] at hcount
    simp only [beq_iff_eq] at hcount
    omega
  | false =>
    rw [removeOne_of_not_contains hc]
    have habsent : count e bag = 0 := by
      by_contra hne
      rw [contains_iff_mem_keys.mpr (h.mem_keys_iff.mpr hne)] at hc
      cases hc
    split
    · next he => rw [← he, habsent]
    · rfl

theorem Canonical.count_filter (h : Canonical bag) (p : Expr → Nat → Bool) :
    count e (bag.filter fun entry => p entry.1 entry.2) =
      if p e (count e bag) = true then count e bag else 0 := by
  -- A multiplicity other than zero is an entry, and entries are what a filter keeps or drops.
  have hkept (m : Nat) (hm : m ≠ 0) :
      count e (bag.filter fun entry => p entry.1 entry.2) = m ↔ count e bag = m ∧ p e m = true := by
    have hmem :=
      (canonical_filter (fun entry => p entry.1 entry.2) h).mem_iff_count (e := e) (n := m)
    rw [List.mem_filter, h.mem_iff_count] at hmem
    tauto
  by_cases hzero : count e (bag.filter fun entry => p entry.1 entry.2) = 0
  · rw [hzero]
    split
    · next hp =>
      by_contra hne
      exact hne (hzero.symm.trans ((hkept _ (Ne.symm hne)).mpr ⟨rfl, hp⟩))
    · rfl
  · obtain ⟨hsame, hp⟩ := (hkept _ hzero).mp rfl
    rw [hsame, if_pos hp]

theorem Canonical.multiplicities_filter (h : Canonical bag) (p : Expr → Nat → Bool) :
    multiplicities (bag.filter fun entry => p entry.1 entry.2) =
      restrict p (multiplicities bag) := by
  ext e
  exact h.count_filter p

theorem Edit.canonical_apply (edit : Edit) (h : Canonical bag) : Canonical (edit.apply bag) := by
  cases edit with
  | insert e => exact canonical_insert e h
  | insertMany e n => exact canonical_insertMany e n h
  | removeOne e => exact canonical_removeOne e h
  | extend es =>
    rw [Edit.apply, extend_eq_merge]
    exact canonical_merge _ h
  | merge entries => exact canonical_merge entries h
  | matching p =>
    rw [Edit.apply, split_eq_filters]
    exact canonical_filter _ h
  | rest p =>
    rw [Edit.apply, split_eq_filters]
    exact canonical_filter _ h

/-- The step: an operation does to the map of a multiset what it does to a map. -/
theorem Edit.multiplicities_apply (edit : Edit) (h : Canonical bag) :
    multiplicities (edit.apply bag) = edit.act (multiplicities bag) := by
  cases edit with
  | insert e =>
    ext key
    exact h.count_insertMany (e := e) (n := 1)
  | insertMany e n =>
    ext key
    exact h.count_insertMany
  | removeOne e =>
    ext key
    exact h.count_removeOne
  | extend es =>
    ext key
    rw [Edit.apply, extend_eq_merge, Bag.multiplicities_apply, h.count_merge, added, List.map_map]
    rfl
  | merge entries =>
    ext key
    exact h.count_merge entries
  | matching p =>
    rw [Edit.apply, split_eq_filters]
    exact h.multiplicities_filter p
  | rest p =>
    rw [Edit.apply, split_eq_filters]
    exact h.multiplicities_filter fun e n => !p e n

/-- The run: every sequence of operations leaves a canonical multiset, whose map is that of the same
operations on maps. -/
theorem canonical_after (edits : List Edit) :
    Canonical (after edits) ∧ multiplicities (after edits) = multiplicitiesAfter edits := by
  -- A run is a fold from the left, so that the last operation is the one to split off.
  induction edits using List.reverseRecOn with
  | nil => exact ⟨canonical_nil, rfl⟩
  | append_singleton edits edit ih =>
    obtain ⟨hc, hf⟩ := ih
    simp only [after, multiplicitiesAfter, List.foldl_append, List.foldl_cons, List.foldl_nil] at *
    exact ⟨edit.canonical_apply hc, (edit.multiplicities_apply hc).trans (by rw [hf])⟩

theorem after_append (edits : List Edit) (edit : Edit) :
    after (edits ++ [edit]) = edit.apply (after edits) := by
  simp [after]

/-- The parts of a partition have no expression in common, and merged they are the whole again. -/
theorem Canonical.merge_split (h : Canonical bag) (p : Expr → Nat → Bool) :
    (∀ e, ¬ (contains e (split bag p).1 = true ∧ contains e (split bag p).2 = true)) ∧
      merge (split bag p).1 (split bag p).2 = bag := by
  rw [split_eq_filters]
  have hmatching := canonical_filter (fun entry => p entry.1 entry.2) h
  have hrest := canonical_filter (fun entry => !p entry.1 entry.2) h
  constructor
  · rintro e ⟨hleft, hright⟩
    rw [contains_iff_mem_keys, hmatching.mem_keys_iff, h.count_filter p] at hleft
    rw [contains_iff_mem_keys, hrest.mem_keys_iff, h.count_filter fun e n => !p e n] at hright
    cases hp : p e (count e bag) <;> simp [hp] at hleft hright
  · refine (canonical_merge _ hmatching).eq_of_perm h ((elements_merge _ _).trans ?_)
    exact List.perm_append_comm.trans (elements_filter_append _ bag)

/-- What one goes on to insert is told apart by its sums alone. -/
theorem Canonical.merge_eq_merge_iff (h : Canonical bag) {entries entries' : List (Expr × Nat)} :
    merge bag entries = merge bag entries' ↔ ∀ e, inserted e entries = inserted e entries' := by
  rw [(canonical_merge entries h).eq_iff_count (canonical_merge entries' h)]
  simp only [h.count_merge, added_apply, Nat.add_left_cancel_iff]

theorem Canonical.extend_eq_extend_iff (h : Canonical bag) {es es' : List Expr} :
    extend bag es = extend bag es' ↔ es.Perm es' := by
  have hinserted (e : Expr) (es : List Expr) : inserted e (es.map fun e => (e, 1)) =
      es.count e := by
    rw [← count_elements_eq_inserted, elements, List.flatMap_map]
    simp
  rw [extend_eq_merge, extend_eq_merge, h.merge_eq_merge_iff, List.perm_iff_count]
  simp only [hinserted]

end Symbolic.Bag
