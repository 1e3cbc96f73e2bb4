import Symbolic.Proofs.Multiplicities

/-! Kept multisets as finite maps: as long as no multiplicity is beyond a machine word, every
sequence of operations on a kept multiset does to its map what it does to a map. -/
namespace Symbolic.Entries

open Bag

variable {e : Expr} {n : Nat} {bag bag' : Bag} {es es' : List Expr}
  {more more' : List (Expr × Nat)} {edit : Edit} {edits : List Edit}

/-- Every multiplicity is that of a machine word. -/
def Fits (bag : Bag) : Prop := ∀ e, Bag.count e bag < wordCount

theorem count_eq (h : Canonical bag) (e : Expr) : count e bag = Bag.count e bag := by
  rw [count, find?_eq h]
  split
  · rfl
  · next habsent =>
    by_contra hne
    exact habsent (contains_iff_mem_keys.mpr (mem_keys_of_count_ne_zero (Ne.symm hne)))

/-! ## What overflows -/

theorem isSome_add?_iff (h : Canonical bag) :
    (add? e n bag).isSome = true ↔ Bag.count e bag + n < wordCount := by
  have hsum (a : Nat) : (wordSum? a n).isSome = true ↔ a + n < wordCount := by
    rw [wordSum?]
    split <;> simp_all
  induction bag with
  | nil => simpa [add?, Bag.count] using hsum 0
  | cons entry rest ih =>
    obtain ⟨key, m⟩ := entry
    simp only [add?]
    cases hc : compare e key with
    | lt =>
      have habsent : Bag.count e ((key, m) :: rest) = 0 := by
        by_contra hne
        exact not_mem_keys_of_lt h hc (mem_keys_of_count_ne_zero hne)
      rw [habsent]
      simpa using hsum 0
    | eq =>
      obtain rfl := (Expr.compare_eq_iff e key).mp hc
      simpa [Bag.count] using hsum m
    | gt =>
      have hne : e ≠ key := Expr.ne_of_compare (by simp [hc])
      simpa [Bag.count, hne] using ih h.tail

theorem Fits.of_merge (h : Canonical bag) (hfits : Fits (Bag.merge bag more)) : Fits bag := by
  intro key
  have := hfits key
  rw [h.count_merge] at this
  omega

/-- An insertion overflows where the exact multiset has a multiplicity beyond a machine word. -/
theorem insertMany?_eq_some_iff (h : Canonical bag) (hfits : Fits bag) :
    insertMany? e n bag = some bag' ↔
      Fits (Bag.insertMany e n bag) ∧ Bag.insertMany e n bag = bag' := by
  rcases Nat.eq_zero_or_pos n with rfl | hn
  · simp [insertMany?, Bag.insertMany, hfits]
  · have hroom : Fits (Bag.insertMany e n bag) ↔ Bag.count e bag + n < wordCount := by
      constructor
      · intro hinserted
        have := hinserted e
        rwa [h.count_insertMany, Finsupp.single_eq_same] at this
      · intro hlt key
        have := hfits key
        rw [h.count_insertMany, Finsupp.single_apply]
        split
        · next he => rwa [← he]
        · omega
    rw [hroom, ← isSome_add?_iff h]
    constructor
    · intro hinsert
      have hexact := insertMany?_exact hinsert
      rw [insertMany?, if_pos hn] at hinsert
      exact ⟨hinsert ▸ rfl, hexact.symm⟩
    · rintro ⟨hsome, rfl⟩
      obtain ⟨added, hadded⟩ := Option.isSome_iff_exists.mp hsome
      have hinsert : insertMany? e n bag = some added := by rw [insertMany?, if_pos hn, hadded]
      rw [hinsert, insertMany?_exact hinsert]

/-- So does a sequence of insertions, since what is inserted stays. -/
theorem merge?_eq_some_iff (h : Canonical bag) (hfits : Fits bag) :
    merge? bag more = some bag' ↔ Fits (Bag.merge bag more) ∧ Bag.merge bag more = bag' := by
  induction more generalizing bag with
  | nil => simp [merge?, Bag.merge, hfits]
  | cons entry rest ih =>
    have hinserted : Canonical (Bag.insertMany entry.1 entry.2 bag) := canonical_insertMany _ _ h
    constructor
    · intro hmerge
      obtain ⟨inserted, hinsert, hrest⟩ := Option.bind_eq_some_iff.mp hmerge
      obtain ⟨hfits', rfl⟩ := (insertMany?_eq_some_iff h hfits).mp hinsert
      exact (ih hinserted hfits').mp hrest
    · rintro ⟨hmerged, rfl⟩
      have hfits' : Fits (Bag.insertMany entry.1 entry.2 bag) := .of_merge hinserted hmerged
      refine Option.bind_eq_some_iff.mpr
        ⟨_, (insertMany?_eq_some_iff h hfits).mpr ⟨hfits', rfl⟩, ?_⟩
      exact (ih hinserted hfits').mpr ⟨hmerged, rfl⟩

theorem extend?_eq_merge? (bag : Bag) (es : List Expr) :
    extend? bag es = merge? bag (es.map fun e => (e, 1)) := by
  rw [merge?, List.foldlM_map]
  rfl

theorem extend?_eq_some_iff (h : Canonical bag) (hfits : Fits bag) :
    extend? bag es = some bag' ↔ Fits (Bag.extend bag es) ∧ Bag.extend bag es = bag' := by
  rw [extend?_eq_merge?, extend_eq_merge, merge?_eq_some_iff h hfits]

theorem Fits.filter (h : Canonical bag) (hfits : Fits bag) (p : Expr → Nat → Bool) :
    Fits (bag.filter fun entry => p entry.1 entry.2) := by
  intro e
  have := hfits e
  rw [h.count_filter]
  split
  · exact this
  · omega

/-- A partition never overflows. -/
theorem partition?_eq_some (h : Canonical bag) (hfits : Fits bag) (p : Expr → Nat → Bool) :
    partition? bag p = some (Bag.split bag p) := by
  have hpart (q : Expr → Nat → Bool) :
      merge? [] (bag.filter fun entry => q entry.1 entry.2) =
        some (bag.filter fun entry => q entry.1 entry.2) := by
    have hcanonical := canonical_filter (fun entry => q entry.1 entry.2) h
    have hempty : Fits [] := fun e => by simp [Bag.count, wordCount]
    refine (merge?_eq_some_iff canonical_nil hempty).mpr ?_
    rw [show Bag.merge [] _ = _ from ofEntries_of_canonical hcanonical]
    exact ⟨hfits.filter h q, rfl⟩
  rw [split_eq_filters]
  exact foldlM_deal?_eq_some_iff.mpr ⟨hpart p, hpart fun e n => !p e n⟩

/-! ## Sequences of operations -/

/-- An operation on a kept multiset. -/
def edited? (entries : Entries Expr) : Edit → Option (Entries Expr)
  | .insert e => insert? e entries
  | .insertMany e count => insertMany? e count entries
  | .removeOne e => some (removeOne e entries)
  | .extend es => extend? entries es
  | .merge more => merge? entries more
  | .matching p => (partition? entries p).map Prod.fst
  | .rest p => (partition? entries p).map Prod.snd

/-- The kept multiset that a sequence of operations makes of the empty one. -/
def after? (edits : List Edit) : Option (Entries Expr) := edits.foldlM edited? []

/-- No multiplicity is ever beyond a machine word. -/
def StaysWithin (edits : List Edit) : Prop :=
  ∀ earlier, earlier <+: edits → ∀ e, multiplicitiesAfter earlier e < wordCount

/-- The step: an operation overflows where the exact one leads beyond machine words, and otherwise
does what the exact one does. -/
theorem edited?_eq_some_iff (h : Canonical bag) (hfits : Fits bag) :
    edited? bag edit = some bag' ↔ Fits (edit.apply bag) ∧ edit.apply bag = bag' := by
  cases edit with
  | insert e => exact insertMany?_eq_some_iff (n := 1) h hfits
  | insertMany e n => exact insertMany?_eq_some_iff h hfits
  | removeOne e =>
    have hremoved : Fits (Bag.removeOne e bag) := by
      intro key
      have := hfits key
      rw [h.count_removeOne]
      omega
    simp [edited?, Edit.apply, removeOne_eq h, hremoved]
  | extend es => exact extend?_eq_some_iff h hfits
  | merge more => exact merge?_eq_some_iff h hfits
  | matching p =>
    have hpart := hfits.filter h p
    rw [edited?, partition?_eq_some h hfits, Edit.apply, split_eq_filters]
    simp [hpart]
  | rest p =>
    have hpart := hfits.filter h fun e n => !p e n
    rw [edited?, partition?_eq_some h hfits, Edit.apply, split_eq_filters]
    simp [hpart]

theorem fits_after_iff (edits : List Edit) :
    Fits (after edits) ↔ ∀ e, multiplicitiesAfter edits e < wordCount := by
  rw [← (canonical_after edits).2]
  rfl

theorem staysWithin_append :
    StaysWithin (edits ++ [edit]) ↔ StaysWithin edits ∧ Fits (after (edits ++ [edit])) := by
  rw [fits_after_iff]
  constructor
  · intro h
    exact ⟨fun earlier hearlier => h earlier (hearlier.trans (List.prefix_append _ _)),
      h _ List.prefix_rfl⟩
  · rintro ⟨hwithin, hlast⟩ earlier hearlier
    rcases List.prefix_concat_iff.mp hearlier with rfl | hearlier
    · exact hlast
    · exact hwithin earlier hearlier

theorem StaysWithin.fits (h : StaysWithin edits) : Fits (after edits) :=
  (fits_after_iff edits).mpr (h edits List.prefix_rfl)

/-- The run: a sequence of operations overflows where some multiplicity does, and otherwise ends in
the exact multiset. -/
theorem after?_eq_some_iff : after? edits = some bag ↔ StaysWithin edits ∧ after edits = bag := by
  -- The last operation is the one to split off, as in the fold from the left.
  induction edits using List.reverseRecOn generalizing bag with
  | nil =>
    have hempty : StaysWithin [] := by
      intro earlier hearlier e
      rw [List.prefix_nil.mp hearlier]
      simp [multiplicitiesAfter, wordCount]
    simp [after?, after, hempty]
  | append_singleton edits edit ih =>
    have hlast : after? (edits ++ [edit]) = (after? edits).bind fun entries =>
        edited? entries edit := by
      simp [after?, List.foldlM_append]
    have hcanonical := (canonical_after edits).1
    rw [hlast, staysWithin_append, after_append]
    constructor
    · intro h
      obtain ⟨entries, hbefore, hedit⟩ := Option.bind_eq_some_iff.mp h
      obtain ⟨hwithin, rfl⟩ := ih.mp hbefore
      obtain ⟨hfits, rfl⟩ := (edited?_eq_some_iff hcanonical hwithin.fits).mp hedit
      exact ⟨⟨hwithin, hfits⟩, rfl⟩
    · rintro ⟨⟨hwithin, hfits⟩, rfl⟩
      refine Option.bind_eq_some_iff.mpr ⟨_, ih.mpr ⟨hwithin, rfl⟩, ?_⟩
      exact (edited?_eq_some_iff hcanonical hwithin.fits).mpr ⟨hfits, rfl⟩

/-! ## What can be read off -/

/-- What can be read off a kept multiset is what can be read off a map of multiplicities. -/
structure Represents (entries : Entries Expr) (f : Expr →₀ Nat) : Prop where
  keys_increasing : (keys entries).Pairwise fun a b => compare a b = .lt
  positive : ∀ entry ∈ entries, 1 ≤ entry.2
  count_eq : ∀ e, count e entries = f e
  contains_iff : ∀ e, contains e entries = true ↔ f e ≠ 0
  length_eq : entries.length = f.support.card
  isEmpty_iff : entries.isEmpty = true ↔ f = 0
  /-- The one reading that may itself be beyond a machine word. -/
  total?_eq_some_iff : ∀ n, total? entries = some n ↔
    (f.sum fun _ n => n) < wordCount ∧ (f.sum fun _ n => n) = n
  single?_iff : ∀ e n, single? entries = some (e, n) ↔ n ≠ 0 ∧ f = Finsupp.single e n
  mem_keys_iff : ∀ e, e ∈ keys entries ↔ f e ≠ 0
  entries_eq : entries = (keys entries).map fun e => (e, f e)
  any_iff : ∀ p, any entries p = true ↔ ∃ e, f e ≠ 0 ∧ p e (f e) = true

theorem represents_of_canonical (h : Canonical bag) : Represents bag (multiplicities bag) where
  keys_increasing := List.pairwise_map.mpr h.1
  positive := h.2
  count_eq e := count_eq h e
  contains_iff e := by
    rw [contains_eq h]
    exact contains_iff_mem_keys.trans h.mem_keys_iff
  length_eq := by
    rw [h.support_multiplicities, List.toFinset_card_of_nodup h.nodup_keys, Bag.keys,
      List.length_map]
  isEmpty_iff := by
    rw [List.isEmpty_iff, h.eq_iff_count canonical_nil, Finsupp.ext_iff]
    rfl
  total?_eq_some_iff n := by
    rw [total?_eq, wordSum?_eq_some_iff, Nat.zero_add, h.total_eq]
  single?_iff _ _ := h.single?_iff
  mem_keys_iff _ := h.mem_keys_iff
  entries_eq := h.entries_eq
  any_iff := h.any_iff

/-- The parts of a kept multiset stand for the restrictions of its map, and are disjoint parts of
the whole. -/
theorem exists_partition? (h : Canonical bag) (hfits : Fits bag) (p : Expr → Nat → Bool) :
    ∃ matching rest, partition? bag p = some (matching, rest) ∧
      Represents matching (restrict p (multiplicities bag)) ∧
      Represents rest (restrict (fun e n => !p e n) (multiplicities bag)) ∧
      (∀ e, ¬ (contains e matching = true ∧ contains e rest = true)) ∧
      merge? matching rest = some bag := by
  have hpart (q : Expr → Nat → Bool) :
      Bag.Canonical (bag.filter fun entry => q entry.1 entry.2) ∧
      Represents (bag.filter fun entry => q entry.1 entry.2) (restrict q (multiplicities bag)) := by
    have hcanonical := canonical_filter (fun entry => q entry.1 entry.2) h
    rw [← h.multiplicities_filter q]
    exact ⟨hcanonical, represents_of_canonical hcanonical⟩
  have hmatching := hpart p
  have hrest := hpart fun e n => !p e n
  obtain ⟨hdisjoint, hwhole⟩ := h.merge_split p
  rw [split_eq_filters] at hdisjoint hwhole
  refine ⟨_, _, (partition?_eq_some h hfits p).trans (congrArg some (split_eq_filters _ p)),
    hmatching.2, hrest.2, ?_, ?_⟩
  · intro e
    rw [contains_eq hmatching.1, contains_eq hrest.1]
    exact hdisjoint e
  · refine (merge?_eq_some_iff hmatching.1 (hfits.filter h p)).mpr ⟨?_, hwhole⟩
    rw [hwhole]
    exact hfits

/-- What one goes on to insert is told apart by its sums alone. -/
theorem merge?_eq_merge?_iff (h : Canonical bag) (hfits : Fits bag)
    (hmerge : merge? bag more = some bag') :
    merge? bag more' = merge? bag more ↔ ∀ e, inserted e more = inserted e more' := by
  rw [← h.merge_eq_merge_iff, hmerge, merge?_eq_some_iff h hfits]
  obtain ⟨hfits', rfl⟩ := (merge?_eq_some_iff h hfits).mp hmerge
  constructor
  · rintro ⟨_, hsame⟩
    exact hsame.symm
  · intro hsame
    exact ⟨hsame ▸ hfits', hsame.symm⟩

theorem extend?_eq_extend?_iff (h : Canonical bag) (hfits : Fits bag)
    (hextend : extend? bag es = some bag') :
    extend? bag es' = extend? bag es ↔ es.Perm es' := by
  rw [← h.extend_eq_extend_iff, hextend, extend?_eq_some_iff h hfits]
  obtain ⟨hfits', rfl⟩ := (extend?_eq_some_iff h hfits).mp hextend
  constructor
  · rintro ⟨_, hsame⟩
    exact hsame.symm
  · intro hsame
    exact ⟨hsame ▸ hfits', hsame.symm⟩

/-- As long as no multiplicity is beyond a machine word, a sequence of insertions, removals and
partitions ends in a multiset off which can be read what can be read off the map of multiplicities
that has had the same additions, truncated decrements and restrictions; the total alone may then be
beyond a machine word. A partition splits the multiset in two disjoint parts, which merged are the
whole again. Two multisets are equal where their multiplicities are, so that insertions may come in
any order. -/
theorem refines_of_staysWithin (edits : List Edit) (h : StaysWithin edits) :
    ∃ entries, after? edits = some entries ∧ Represents entries (multiplicitiesAfter edits) ∧
      (∀ p, ∃ matching rest, partition? entries p = some (matching, rest) ∧
        Represents matching (restrict p (multiplicitiesAfter edits)) ∧
        Represents rest (restrict (fun e n => !p e n) (multiplicitiesAfter edits)) ∧
        (∀ e, ¬ (contains e matching = true ∧ contains e rest = true)) ∧
        merge? matching rest = some entries) ∧
      (∀ edits' entries', after? edits' = some entries' →
        (entries = entries' ↔ ∀ e, count e entries = count e entries') ∧
        (entries = entries' ↔ multiplicitiesAfter edits = multiplicitiesAfter edits')) ∧
      (∀ es es' entries', extend? entries es = some entries' →
        (extend? entries es' = extend? entries es ↔ es.Perm es')) ∧
      ∀ more more' entries', merge? entries more = some entries' →
        (merge? entries more' = merge? entries more ↔
          ∀ e, inserted e more = inserted e more') := by
  obtain ⟨hc, hmap⟩ := canonical_after edits
  have hfits := h.fits
  have hrepresents : Represents (after edits) (multiplicitiesAfter edits) :=
    hmap ▸ represents_of_canonical hc
  refine ⟨after edits, after?_eq_some_iff.mpr ⟨h, rfl⟩, hrepresents, ?_, ?_, ?_, ?_⟩
  · intro p
    rw [← hmap]
    exact exists_partition? hc hfits p
  · intro edits' entries' h'
    obtain ⟨_, rfl⟩ := after?_eq_some_iff.mp h'
    obtain ⟨hc', hmap'⟩ := canonical_after edits'
    simp only [count_eq hc, count_eq hc']
    have hcounts := hc.eq_iff_count hc'
    refine ⟨hcounts, hcounts.trans ?_⟩
    rw [← hmap, ← hmap', Finsupp.ext_iff]
    rfl
  · intro es es' entries' hextend
    exact extend?_eq_extend?_iff hc hfits hextend
  · intro more more' entries' hmerge
    exact merge?_eq_merge?_iff hc hfits hmerge

/-- Two multiplicities whose total is the largest number that a machine word holds. -/
theorem refines_of_staysWithin_of_largest :
    let edits : List Edit := [.insert (.symbol "y"), .insertMany (.symbol "x") (wordCount - 2)]
    StaysWithin edits ∧ ∃ entries, after? edits = some entries ∧
      Represents entries (multiplicitiesAfter edits) ∧ total? entries = some (wordCount - 1) := by
  intro edits
  have hsome : after? edits = some [(.symbol "x", wordCount - 2), (.symbol "y", 1)] := by decide
  have h : StaysWithin edits := (after?_eq_some_iff.mp hsome).1
  obtain ⟨entries, hentries, hrepresents, _⟩ := refines_of_staysWithin edits h
  refine ⟨h, entries, hentries, hrepresents, ?_⟩
  obtain rfl := Option.some.inj (hsome.symm.trans hentries)
  decide

/-- With one occurrence more the multiset is still kept, and the total is beyond a machine word. -/
example :
    let edits : List Edit := [.insert (.symbol "y"), .insertMany (.symbol "x") (wordCount - 1)]
    (after? edits).isSome = true ∧ (after? edits).bind total? = none := by decide

/-- An expression that is removed as often as it was inserted leaves no multiplicity of zero behind,
and to remove it once more changes nothing. -/
example : after? [.extend [.symbol "y", .symbol "x"], .insertMany (.symbol "x") 2,
    .removeOne (.symbol "y"), .removeOne (.symbol "y"), .rest fun _ n => n = 1] =
      some [(.symbol "x", 3)] := by decide

end Symbolic.Entries
