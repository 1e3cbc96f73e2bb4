import Mathlib.Data.List.Basic
import Mathlib.Data.List.Nodup
import Symbolic.Expr.WellFormed
import Symbolic.Proofs.Order

/-! Multisets as lists of their elements up to order, and the one form that every operation
keeps. -/
namespace Symbolic.Bag

variable {e key : Expr} {n : Nat} {bag : Bag}

/-- Each key as often as it occurs. -/
def elements (bag : Bag) : List Expr := bag.flatMap fun entry => List.replicate entry.2 entry.1

@[simp] theorem elements_nil : elements [] = [] := rfl

@[simp] theorem elements_cons (entry : Expr × Nat) (rest : Bag) :
    elements (entry :: rest) = List.replicate entry.2 entry.1 ++ elements rest := rfl

theorem mem_elements : e ∈ elements bag ↔ ∃ n, (e, n) ∈ bag ∧ n ≠ 0 := by
  simp only [elements, List.mem_flatMap, List.mem_replicate]
  constructor
  · rintro ⟨⟨key, n⟩, hm, hn, rfl⟩
    exact ⟨n, hm, hn⟩
  · rintro ⟨n, hm, hn⟩
    exact ⟨(e, n), hm, hn, rfl⟩

theorem mem_keys_of_mem_elements (h : e ∈ elements bag) : e ∈ keys bag := by
  obtain ⟨n, hm, _⟩ := mem_elements.mp h
  exact List.mem_map_of_mem hm

theorem elements_insertPositive (e : Expr) (n : Nat) (bag : Bag) :
    (elements (insertPositive e n bag)).Perm (List.replicate n e ++ elements bag) := by
  induction bag with
  | nil => rfl
  | cons entry rest ih =>
    obtain ⟨key, m⟩ := entry
    simp only [insertPositive]
    split
    · next h =>
      subst h
      simp only [elements_cons, ← List.append_assoc, List.replicate_append_replicate,
        Nat.add_comm n m]
      rfl
    · split
      · rfl
      · simp only [elements_cons]
        exact (ih.append_left _).trans (List.perm_append_comm_assoc _ _ _)

theorem elements_insertMany (e : Expr) (n : Nat) (bag : Bag) :
    (elements (insertMany e n bag)).Perm (List.replicate n e ++ elements bag) := by
  simp only [insertMany]
  split
  · next h => simp [h]
  · exact elements_insertPositive e n bag

theorem elements_insert (e : Expr) (bag : Bag) :
    (elements (insert e bag)).Perm (e :: elements bag) :=
  elements_insertMany e 1 bag

theorem elements_merge (bag : Bag) (entries : List (Expr × Nat)) :
    (elements (merge bag entries)).Perm (elements entries ++ elements bag) := by
  induction entries generalizing bag with
  | nil => rfl
  | cons entry rest ih =>
    refine (ih (insertMany entry.1 entry.2 bag)).trans ?_
    simp only [elements_cons, List.append_assoc]
    exact ((elements_insertMany _ _ _).append_left _).trans (List.perm_append_comm_assoc _ _ _)

theorem elements_ofEntries (entries : List (Expr × Nat)) :
    (elements (ofEntries entries)).Perm (elements entries) := by
  simpa [ofEntries] using elements_merge [] entries

theorem elements_extend (bag : Bag) (es : List Expr) :
    (elements (extend bag es)).Perm (es ++ elements bag) := by
  induction es generalizing bag with
  | nil => rfl
  | cons e rest ih =>
    refine (ih (insert e bag)).trans ?_
    exact ((elements_insert e bag).append_left rest).trans List.perm_middle

theorem elements_ofList (es : List Expr) : (elements (ofList es)).Perm es := by
  simpa [ofList] using elements_extend [] es

theorem elements_append (bag bag' : Bag) :
    elements (bag ++ bag') = elements bag ++ elements bag' := by
  simp [elements]

theorem elements_filter_append (p : Expr × Nat → Bool) (bag : Bag) :
    (elements (bag.filter p) ++ elements (bag.filter fun entry => !p entry)).Perm
      (elements bag) := by
  rw [← elements_append]
  exact (List.filter_append_perm p bag).flatMap_right _

theorem elements_filter_keys (p : Expr → Bool) (bag : Bag) :
    elements (bag.filter fun entry => p entry.1) = (elements bag).filter p := by
  induction bag with
  | nil => rfl
  | cons entry rest ih =>
    simp only [elements_cons, List.filter_append, List.filter_replicate, List.filter_cons]
    split
    · rw [elements_cons, ih]
    · exact ih

theorem elements_eq_keys (h : ∀ entry ∈ bag, entry.2 = 1) : elements bag = keys bag := by
  induction bag with
  | nil => rfl
  | cons entry rest ih =>
    have hentry : entry.2 = 1 := h entry List.mem_cons_self
    rw [elements_cons, hentry, ih fun x hx => h x (List.mem_cons_of_mem _ hx)]
    rfl

/-- Elements of a multiset whose keys are replaced one by one. -/
theorem elements_map (f : Expr → Expr) (bag : Bag) :
    elements (bag.map fun entry => (f entry.1, entry.2)) = (elements bag).map f := by
  induction bag with
  | nil => rfl
  | cons entry rest ih => simp [ih]

theorem length_elements (bag : Bag) : (elements bag).length = total bag := by
  induction bag with
  | nil => rfl
  | cons entry rest ih => rw [elements_cons, List.length_append, List.length_replicate, ih, total]

theorem total_ofEntries (entries : List (Expr × Nat)) :
    total (ofEntries entries) = total entries := by
  rw [← length_elements, (elements_ofEntries entries).length_eq, length_elements]

theorem total_filter_add (p : Expr × Nat → Bool) (bag : Bag) :
    total (bag.filter p) + total (bag.filter fun entry => !p entry) = total bag := by
  simp only [← length_elements, ← List.length_append]
  exact (elements_filter_append p bag).length_eq

theorem elements_removeOne (hpos : ∀ entry ∈ bag, 1 ≤ entry.2) (h : contains e bag = true) :
    (e :: elements (removeOne e bag)).Perm (elements bag) := by
  induction bag with
  | nil => simp [contains] at h
  | cons entry rest ih =>
    obtain ⟨key, n⟩ := entry
    have hn : 1 ≤ n := hpos (key, n) List.mem_cons_self
    simp only [removeOne]
    split
    · next he =>
      subst he
      obtain ⟨m, rfl⟩ : ∃ m, n = m + 1 := ⟨n - 1, by omega⟩
      split
      · simp [List.replicate_succ]
      · have : m = 0 := by omega
        subst this
        simp
    · next he =>
      have hr : contains e rest = true := by simpa [contains, Ne.symm he] using h
      have hrest := ih (fun entry hm => hpos entry (List.mem_cons_of_mem _ hm)) hr
      simp only [elements_cons]
      exact List.perm_middle.symm.trans (hrest.append_left _)

theorem mem_keys_insertPositive (h : key ∈ keys (insertPositive e n bag)) :
    key = e ∨ key ∈ keys bag := by
  induction bag with
  | nil => exact Or.inl (List.mem_singleton.mp h)
  | cons head rest ih =>
    obtain ⟨other, m⟩ := head
    simp only [insertPositive] at h
    split at h
    · exact Or.inr h
    · split at h
      · exact List.mem_cons.mp h
      · rcases List.mem_cons.mp h with rfl | h
        · exact Or.inr List.mem_cons_self
        · exact (ih h).imp_right (List.mem_cons_of_mem _)

theorem keys_insertMany_subset (e : Expr) (n : Nat) (bag : Bag) :
    keys (insertMany e n bag) ⊆ e :: keys bag := by
  simp only [insertMany]
  split
  · exact List.subset_cons_self _ _
  · intro key hk
    exact List.mem_cons.mpr (mem_keys_insertPositive hk)

theorem keys_merge_subset (bag : Bag) (entries : List (Expr × Nat)) :
    keys (merge bag entries) ⊆ keys entries ++ keys bag := by
  induction entries generalizing bag with
  | nil => exact List.Subset.refl _
  | cons entry rest ih =>
    intro key hk
    rcases List.mem_append.mp (ih _ hk) with hk | hk
    · exact List.mem_append_left _ (List.mem_cons_of_mem _ hk)
    · rcases List.mem_cons.mp (keys_insertMany_subset _ _ _ hk) with rfl | hk
      · exact List.mem_append_left _ List.mem_cons_self
      · exact List.mem_append_right _ hk

theorem keys_ofEntries_subset (entries : List (Expr × Nat)) :
    keys (ofEntries entries) ⊆ keys entries := by
  simpa [ofEntries, keys] using keys_merge_subset [] entries

theorem Canonical.tail {entry : Expr × Nat} (h : Canonical (entry :: bag)) : Canonical bag :=
  ⟨h.1.of_cons, fun entry hm => h.2 entry (List.mem_cons_of_mem _ hm)⟩

theorem Canonical.head_lt {entry : Expr × Nat} (h : Canonical (entry :: bag)) {e : Expr}
    (he : e ∈ keys bag) : compare entry.1 e = .lt := by
  obtain ⟨other, hm, rfl⟩ := List.mem_map.mp he
  exact List.rel_of_pairwise_cons h.1 hm

theorem canonical_cons {e : Expr} {n : Nat} (hn : 1 ≤ n)
    (hlt : ∀ key ∈ keys bag, compare e key = .lt) (h : Canonical bag) :
    Canonical ((e, n) :: bag) := by
  constructor
  · exact List.pairwise_cons.mpr ⟨fun entry hm => hlt entry.1 (List.mem_map_of_mem hm), h.1⟩
  · intro entry hm
    rcases List.mem_cons.mp hm with rfl | hm
    · exact hn
    · exact h.2 entry hm

theorem canonical_nil : Canonical [] := ⟨List.Pairwise.nil, by simp⟩

theorem canonical_insertPositive (hn : 1 ≤ n) (h : Canonical bag) :
    Canonical (insertPositive e n bag) := by
  induction bag with
  | nil => exact canonical_cons hn (by simp [keys]) canonical_nil
  | cons head rest ih =>
    obtain ⟨key, m⟩ := head
    simp only [insertPositive]
    split
    · exact canonical_cons (by omega) (fun _ => h.head_lt) h.tail
    · next hne =>
      split
      · next hlt =>
        refine canonical_cons hn ?_ h
        intro other hm
        rcases List.mem_cons.mp hm with rfl | hm
        · exact hlt
        · exact Std.TransCmp.lt_trans hlt (h.head_lt hm)
      · next hnlt =>
        have hgt : compare key e = .lt := by
          cases hc : compare e key with
          | lt => exact (hnlt hc).elim
          | eq => exact (hne (Std.LawfulEqOrd.eq_of_compare hc)).elim
          | gt => exact Std.OrientedCmp.lt_of_gt hc
        refine canonical_cons (h.2 (key, m) List.mem_cons_self) ?_ (ih h.tail)
        intro other hm
        rcases mem_keys_insertPositive hm with rfl | hm
        · exact hgt
        · exact h.head_lt hm

theorem canonical_insertMany (e : Expr) (n : Nat) (h : Canonical bag) :
    Canonical (insertMany e n bag) := by
  simp only [insertMany]
  split
  · exact h
  · exact canonical_insertPositive (by omega) h

theorem canonical_insert (e : Expr) (h : Canonical bag) : Canonical (insert e bag) :=
  canonical_insertMany e 1 h

theorem canonical_merge (entries : List (Expr × Nat)) (h : Canonical bag) :
    Canonical (merge bag entries) := by
  induction entries generalizing bag with
  | nil => exact h
  | cons entry rest ih => exact ih (canonical_insertMany entry.1 entry.2 h)

theorem canonical_ofEntries (entries : List (Expr × Nat)) : Canonical (ofEntries entries) :=
  canonical_merge entries canonical_nil

theorem canonical_ofList (es : List Expr) : Canonical (ofList es) := by
  have extended : ∀ {bag : Bag}, Canonical bag → Canonical (extend bag es) := by
    induction es with
    | nil => exact id
    | cons e rest ih => exact fun h => ih (canonical_insert e h)
  exact extended canonical_nil

theorem canonical_filter (p : Expr × Nat → Bool) (h : Canonical bag) : Canonical (bag.filter p) :=
  ⟨h.1.filter p, fun entry hm => h.2 entry (List.mem_filter.mp hm).1⟩

theorem keys_removeOne_subset (e : Expr) (bag : Bag) : keys (removeOne e bag) ⊆ keys bag := by
  induction bag with
  | nil => exact List.Subset.refl _
  | cons head rest ih =>
    obtain ⟨key, n⟩ := head
    simp only [removeOne]
    split
    · split
      · exact List.Subset.refl _
      · exact List.subset_cons_self _ _
    · exact List.cons_subset_cons key ih

theorem canonical_removeOne (e : Expr) (h : Canonical bag) : Canonical (removeOne e bag) := by
  induction bag with
  | nil => exact h
  | cons head rest ih =>
    obtain ⟨key, n⟩ := head
    simp only [removeOne]
    split
    · split
      · exact canonical_cons (by omega) (fun _ => h.head_lt) h.tail
      · exact h.tail
    · refine canonical_cons (h.2 (key, n) List.mem_cons_self) ?_ (ih h.tail)
      intro other hm
      exact h.head_lt (keys_removeOne_subset e rest hm)

theorem Canonical.nodup_keys (h : Canonical bag) : (keys bag).Nodup := by
  refine List.pairwise_map.mpr (h.1.imp fun {a b} hlt heq => ?_)
  have hsame : compare a.1 b.1 = .eq := (Expr.compare_eq_iff _ _).mpr heq
  rw [hlt] at hsame
  cases hsame

/-- The multiplicity of a key is how often it occurs. -/
theorem count_elements (h : Canonical bag) (hm : (e, n) ∈ bag) : (elements bag).count e = n := by
  induction bag with
  | nil => exact nomatch hm
  | cons entry rest ih =>
    simp only [elements_cons, List.count_append, List.count_replicate]
    have hnodup := h.nodup_keys
    simp only [keys, List.map_cons, List.nodup_cons] at hnodup
    rcases List.mem_cons.mp hm with rfl | hm
    · have habsent : (elements rest).count e = 0 :=
        List.count_eq_zero.mpr fun he => hnodup.1 (mem_keys_of_mem_elements he)
      simp [habsent]
    · have he : e ∈ rest.map Prod.fst := List.mem_map_of_mem hm
      have hne : entry.1 ≠ e := fun heq => hnodup.1 (heq ▸ he)
      simp [ih h.tail hm, hne]

theorem mem_iff_count_elements (h : Canonical bag) :
    (e, n) ∈ bag ↔ n ≠ 0 ∧ (elements bag).count e = n := by
  constructor
  · intro hm
    have hpos := h.2 (e, n) hm
    exact ⟨by dsimp only at hpos; omega, count_elements h hm⟩
  · rintro ⟨hn, hcount⟩
    have hin : e ∈ elements bag := List.count_pos_iff.mp (by omega)
    obtain ⟨m, hm, _⟩ := mem_elements.mp hin
    rw [← hcount, count_elements h hm]
    exact hm

/-- Canonical multisets of the same elements are the same, whatever order these came in. -/
theorem Canonical.eq_of_perm {bag' : Bag} (h : Canonical bag) (h' : Canonical bag')
    (hp : (elements bag).Perm (elements bag')) : bag = bag' := by
  have nodup {b : Bag} (hb : Canonical b) : b.Nodup := hb.nodup_keys.of_map
  have same : ∀ entry : Expr × Nat, entry ∈ bag ↔ entry ∈ bag' := by
    rintro ⟨e, n⟩
    rw [mem_iff_count_elements h, mem_iff_count_elements h', hp.count_eq]
  refine List.Perm.eq_of_pairwise ?_ h.1 h'.1
    ((List.perm_ext_iff_of_nodup (nodup h) (nodup h')).mpr same)
  intro a b _ _ hlt hgt
  rw [Std.OrientedCmp.gt_of_lt hgt] at hlt
  cases hlt

/-- A canonical multiset with a different multiplicity at each key keeps its keys, so that the
elements tell the keys. -/
theorem mem_elements_iff_mem_keys (h : Canonical bag) : e ∈ elements bag ↔ e ∈ keys bag := by
  constructor
  · exact mem_keys_of_mem_elements
  · intro he
    obtain ⟨⟨key, n⟩, hm, rfl⟩ := List.mem_map.mp he
    have := h.2 (key, n) hm
    exact mem_elements.mpr ⟨n, hm, by dsimp only at this; omega⟩

theorem mem_keys_ofList {es : List Expr} : e ∈ keys (ofList es) ↔ e ∈ es := by
  rw [← mem_elements_iff_mem_keys (canonical_ofList es)]
  exact (elements_ofList es).mem_iff

theorem length_le_total (h : Canonical bag) : bag.length ≤ total bag := by
  induction bag with
  | nil => exact Nat.le_refl 0
  | cons entry rest ih =>
    have hone := h.2 entry List.mem_cons_self
    have hrest := ih h.tail
    rw [List.length_cons, total]
    omega

theorem length_insertPositive_le (e : Expr) (n : Nat) (bag : Bag) :
    (insertPositive e n bag).length ≤ bag.length + 1 := by
  induction bag with
  | nil => exact Nat.le_refl 1
  | cons entry rest ih =>
    rw [insertPositive]
    split
    · exact Nat.le_succ _
    · split
      · exact Nat.le_refl _
      · exact Nat.succ_le_succ ih

theorem length_insert_le (e : Expr) (bag : Bag) : (insert e bag).length ≤ bag.length + 1 :=
  length_insertPositive_le e 1 bag

theorem mem_keys_of_mem_keys_insert (h : key ∈ keys (insert e bag)) : key = e ∨ key ∈ keys bag :=
  List.mem_cons.mp (keys_insertMany_subset e 1 bag h)

theorem keys_filter_subset (p : Expr × Nat → Bool) (bag : Bag) : keys (bag.filter p) ⊆ keys bag :=
  List.map_subset _ (List.filter_subset_self bag)

theorem forall_elements_of_subset {bag' : Bag} {p : Expr → Prop} (hsub : keys bag' ⊆ keys bag)
    (h : ∀ e ∈ keys bag, p e) : ∀ e ∈ elements bag', p e :=
  fun e he => h e (hsub (mem_keys_of_mem_elements he))

theorem ofEntries_of_canonical (h : Canonical bag) : ofEntries bag = bag :=
  (canonical_ofEntries bag).eq_of_perm h (elements_ofEntries bag)

theorem mem_keys_insertMany_self (hn : n ≠ 0) : e ∈ keys (insertMany e n bag) := by
  refine mem_keys_of_mem_elements ((elements_insertMany e n bag).mem_iff.mpr ?_)
  exact List.mem_append_left _ (List.mem_replicate.mpr ⟨hn, rfl⟩)

theorem keys_subset_insertMany (h : Canonical bag) : keys bag ⊆ keys (insertMany e n bag) := by
  intro key hk
  refine mem_keys_of_mem_elements ((elements_insertMany e n bag).mem_iff.mpr ?_)
  exact List.mem_append_right _ ((mem_elements_iff_mem_keys h).mpr hk)

theorem elements_images_insertMany (f : Expr → Expr) (e : Expr) (n : Nat) (bag : Bag) :
    (elements (ofEntries ((insertMany e n bag).map fun entry => (f entry.1, entry.2)))).Perm
      (List.replicate n (f e) ++ (elements bag).map f) := by
  have hinserted := (elements_insertMany e n bag).map f
  rw [← elements_map, List.map_append, List.map_replicate] at hinserted
  exact (elements_ofEntries _).trans hinserted

/-- Where the images agree, it does not matter whose images they are, nor which of them meet. -/
theorem images_insertMany {e' : Expr} {f f' : Expr → Expr} (he : f e = f' e')
    (h : ∀ c ∈ keys bag, f c = f' c) :
    ofEntries ((insertMany e n bag).map fun entry => (f entry.1, entry.2)) =
      ofEntries ((insertMany e' n bag).map fun entry => (f' entry.1, entry.2)) := by
  refine (canonical_ofEntries _).eq_of_perm (canonical_ofEntries _) ?_
  have hothers : (elements bag).map f = (elements bag).map f' :=
    List.map_congr_left fun c hc => h c (mem_keys_of_mem_elements hc)
  have hleft := elements_images_insertMany f e n bag
  have hright := elements_images_insertMany f' e' n bag
  rw [he, hothers] at hleft
  exact hleft.trans hright.symm

end Symbolic.Bag
