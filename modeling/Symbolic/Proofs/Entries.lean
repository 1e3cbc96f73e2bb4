import Mathlib.Algebra.BigOperators.Group.List.Basic
import Mathlib.Algebra.Order.Ring.Int
import Symbolic.Entries
import Symbolic.Proofs.Equality

/-! Kept multisets against exact ones: the operations depend on nothing but the order of the keys,
and where they give a value it is the exact one. -/
namespace Symbolic

theorem wordSum?_eq_some_iff {a b n : Nat} :
    wordSum? a b = some n ↔ a + b < wordCount ∧ a + b = n := by
  rw [wordSum?]
  split
  · next h => simp [h]
  · next h => simp [h]

/-- A fold whose steps agree under two maps, of the states and of the elements. -/
theorem foldlM_map_of_step {σ τ α β : Type} {g : σ → α → Option σ} {g' : τ → β → Option τ}
    {F : σ → τ} {k : α → β} (h : ∀ s a, g' (F s) (k a) = (g s a).map F) (s : σ) (as : List α) :
    (as.map k).foldlM g' (F s) = (as.foldlM g s).map F := by
  induction as generalizing s with
  | nil => rfl
  | cons a rest ih =>
    simp only [List.map_cons, List.foldlM_cons, h]
    cases hg : g s a with
    | none => rfl
    | some next => exact ih next

namespace Bag

theorem split_eq_filters (bag : Bag) (p : Expr → Nat → Bool) :
    split bag p = (bag.filter fun entry => p entry.1 entry.2,
      bag.filter fun entry => !p entry.1 entry.2) :=
  List.partition_eq_filter_filter

/-- The parts are what one gets by inserting their entries one after the other. -/
theorem Canonical.split_eq_ofEntries {bag : Bag} (h : Canonical bag) (p : Expr → Nat → Bool) :
    split bag p = (ofEntries (bag.filter fun entry => p entry.1 entry.2),
      ofEntries (bag.filter fun entry => !p entry.1 entry.2)) := by
  rw [split_eq_filters, ofEntries_of_canonical (canonical_filter _ h),
    ofEntries_of_canonical (canonical_filter _ h)]

end Bag

namespace Entries

/-! ## The order of the keys decides -/

section

variable {κ κ' : Type} {f : κ → κ'} {entries : Entries κ}

/-- The entries with other keys. -/
def mapKeys (f : κ → κ') (entries : Entries κ) : Entries κ' :=
  entries.map fun entry => (f entry.1, entry.2)

@[simp] theorem mapKeys_nil (f : κ → κ') : mapKeys f [] = [] := rfl

@[simp] theorem mapKeys_cons (f : κ → κ') (entry : κ × Nat) (rest : Entries κ) :
    mapKeys f (entry :: rest) = (f entry.1, entry.2) :: mapKeys f rest := rfl

theorem keys_mapKeys (f : κ → κ') (entries : Entries κ) :
    keys (mapKeys f entries) = (keys entries).map f := by
  simp [keys, mapKeys, Function.comp_def]

theorem mapKeys_filter (p : κ' × Nat → Bool) (f : κ → κ') (entries : Entries κ) :
    (mapKeys f entries).filter p =
      mapKeys f (entries.filter fun entry => p (f entry.1, entry.2)) := by
  rw [mapKeys, List.filter_map]
  rfl

theorem any_mapKeys (f : κ → κ') (entries : Entries κ) (p : κ' → Nat → Bool) :
    any (mapKeys f entries) p = any entries fun key n => p (f key) n := by
  simp [any, mapKeys, List.any_map, Function.comp_def]

theorem total?_mapKeys (f : κ → κ') (entries : Entries κ) :
    total? (mapKeys f entries) = total? entries := by
  rw [total?, mapKeys, List.foldlM_map]
  rfl

variable [Ord κ] [Ord κ'] (hf : ∀ a b, compare (f a) (f b) = compare a b)
include hf

theorem add?_mapKeys (key : κ) (n : Nat) (entries : Entries κ) :
    add? (f key) n (mapKeys f entries) = (add? key n entries).map (mapKeys f) := by
  induction entries with
  | nil => cases h : wordSum? 0 n <;> simp [add?, h]
  | cons entry rest ih =>
    obtain ⟨other, m⟩ := entry
    simp only [mapKeys_cons, add?, hf]
    cases compare key other with
    | lt => cases h : wordSum? 0 n <;> simp
    | eq => cases h : wordSum? m n <;> simp
    | gt =>
      rw [ih]
      cases h : add? key n rest <;> simp

theorem insertMany?_mapKeys (key : κ) (n : Nat) (entries : Entries κ) :
    insertMany? (f key) n (mapKeys f entries) = (insertMany? key n entries).map (mapKeys f) := by
  simp only [insertMany?]
  split
  · exact add?_mapKeys hf key n entries
  · rfl

theorem merge?_mapKeys (entries more : Entries κ) :
    merge? (mapKeys f entries) (mapKeys f more) = (merge? entries more).map (mapKeys f) :=
  foldlM_map_of_step (fun entries entry => insertMany?_mapKeys hf entry.1 entry.2 entries) _ _

theorem extend?_mapKeys (entries : Entries κ) (keys : List κ) :
    extend? (mapKeys f entries) (keys.map f) = (extend? entries keys).map (mapKeys f) :=
  foldlM_map_of_step (fun entries key => insertMany?_mapKeys hf key 1 entries) entries keys

theorem ofList?_map (keys : List κ) : ofList? (keys.map f) = (ofList? keys).map (mapKeys f) :=
  extend?_mapKeys hf [] keys

theorem find?_mapKeys (key : κ) (entries : Entries κ) :
    find? (f key) (mapKeys f entries) = find? key entries := by
  induction entries with
  | nil => rfl
  | cons entry rest ih => simp only [mapKeys_cons, find?, hf, ih]

theorem contains_mapKeys (key : κ) (entries : Entries κ) :
    contains (f key) (mapKeys f entries) = contains key entries := by
  rw [contains, find?_mapKeys hf, contains]

theorem removeOne_mapKeys (key : κ) (entries : Entries κ) :
    removeOne (f key) (mapKeys f entries) = mapKeys f (removeOne key entries) := by
  induction entries with
  | nil => rfl
  | cons entry rest ih =>
    simp only [mapKeys_cons, removeOne, hf, ih]
    split
    · rfl
    · split <;> rfl
    · rfl

theorem deal?_mapKeys (p : κ' → Nat → Bool) (parts : Entries κ × Entries κ) (entry : κ × Nat) :
    deal? p (Prod.map (mapKeys f) (mapKeys f) parts) (f entry.1, entry.2) =
      (deal? (fun key n => p (f key) n) parts entry).map (Prod.map (mapKeys f) (mapKeys f)) := by
  simp only [deal?, Prod.map_fst, Prod.map_snd, insertMany?_mapKeys hf]
  split
  · cases h : insertMany? entry.1 entry.2 parts.1 <;> rfl
  · cases h : insertMany? entry.1 entry.2 parts.2 <;> rfl

theorem partition?_mapKeys (entries : Entries κ) (p : κ' → Nat → Bool) :
    partition? (mapKeys f entries) p =
      (partition? entries fun key n => p (f key) n).map (Prod.map (mapKeys f) (mapKeys f)) :=
  foldlM_map_of_step (deal?_mapKeys hf p) ([], []) entries

end

section

variable {κ : Type} [Ord κ] {key : κ} {n : Nat} {entries entries' : Entries κ}

/-- Whatever the key, the counts grow by what is added. -/
theorem sum_add? (h : add? key n entries = some entries') :
    (entries'.map Prod.snd).sum = (entries.map Prod.snd).sum + n := by
  induction entries generalizing entries' with
  | nil =>
    obtain ⟨sum, hsum, rfl⟩ := Option.map_eq_some_iff.mp h
    obtain ⟨_, rfl⟩ := wordSum?_eq_some_iff.mp hsum
    simp
  | cons entry rest ih =>
    obtain ⟨other, m⟩ := entry
    simp only [add?] at h
    split at h
    · obtain ⟨sum, hsum, rfl⟩ := Option.map_eq_some_iff.mp h
      obtain ⟨_, rfl⟩ := wordSum?_eq_some_iff.mp hsum
      simp only [List.map_cons, List.sum_cons]
      omega
    · obtain ⟨sum, hsum, rfl⟩ := Option.map_eq_some_iff.mp h
      obtain ⟨_, rfl⟩ := wordSum?_eq_some_iff.mp hsum
      simp only [List.map_cons, List.sum_cons]
      omega
    · obtain ⟨added, hadded, rfl⟩ := Option.map_eq_some_iff.mp h
      have hrest := ih hadded
      simp only [List.map_cons, List.sum_cons]
      omega

theorem exists_add? (h : (entries.map Prod.snd).sum + n < wordCount) :
    ∃ entries', add? key n entries = some entries' := by
  induction entries with
  | nil => exact ⟨[(key, 0 + n)], by simp_all [add?, wordSum?]⟩
  | cons entry rest ih =>
    obtain ⟨other, m⟩ := entry
    simp only [List.map_cons, List.sum_cons] at h
    simp only [add?]
    split
    · exact ⟨(key, 0 + n) :: (other, m) :: rest, by rw [wordSum?, if_pos (by omega)]; rfl⟩
    · exact ⟨(other, m + n) :: rest, by rw [wordSum?, if_pos (by omega)]; rfl⟩
    · obtain ⟨added, hadded⟩ := ih (by omega)
      exact ⟨(other, m) :: added, by rw [hadded]; rfl⟩

theorem sum_insert? (h : insert? key entries = some entries') :
    (entries'.map Prod.snd).sum = (entries.map Prod.snd).sum + 1 :=
  sum_add? h

theorem exists_insert? (h : (entries.map Prod.snd).sum + 1 < wordCount) :
    ∃ entries', insert? key entries = some entries' :=
  exists_add? h

section

variable [Std.LawfulEqOrd κ]

/-- The count of the key grows. -/
theorem find?_add?_self (h : add? key n entries = some entries') :
    find? key entries' = some (count key entries + n) := by
  induction entries generalizing entries' with
  | nil =>
    obtain ⟨sum, hsum, rfl⟩ := Option.map_eq_some_iff.mp h
    obtain ⟨_, rfl⟩ := wordSum?_eq_some_iff.mp hsum
    simp [find?, count, Std.ReflCmp.compare_self]
  | cons entry rest ih =>
    obtain ⟨first, m⟩ := entry
    simp only [add?] at h
    cases hc : compare key first with
    | lt =>
      simp only [hc, Option.map_eq_some_iff] at h
      obtain ⟨sum, hsum, rfl⟩ := h
      obtain ⟨_, rfl⟩ := wordSum?_eq_some_iff.mp hsum
      simp [find?, count, hc, Std.ReflCmp.compare_self]
    | eq =>
      simp only [hc, Option.map_eq_some_iff] at h
      obtain ⟨sum, hsum, rfl⟩ := h
      obtain ⟨_, rfl⟩ := wordSum?_eq_some_iff.mp hsum
      simp [find?, count, hc]
    | gt =>
      simp only [hc, Option.map_eq_some_iff] at h
      obtain ⟨added, hadded, rfl⟩ := h
      have hrest := ih hadded
      simpa [find?, count, hc] using hrest

/-- The other counts stay. -/
theorem find?_add?_of_ne [Std.TransOrd κ] {other : κ} (h : add? key n entries = some entries')
    (hne : other ≠ key) :
    find? other entries' = find? other entries := by
  have hcompare : compare other key ≠ .eq := fun he => hne (Std.LawfulEqCmp.eq_of_compare he)
  induction entries generalizing entries' with
  | nil =>
    obtain ⟨sum, hsum, rfl⟩ := Option.map_eq_some_iff.mp h
    simp only [find?]
    cases hc : compare other key with
    | eq => exact absurd hc hcompare
    | lt | gt => rfl
  | cons entry rest ih =>
    obtain ⟨first, m⟩ := entry
    simp only [add?] at h
    cases hc : compare key first with
    | lt =>
      simp only [hc, Option.map_eq_some_iff] at h
      obtain ⟨sum, hsum, rfl⟩ := h
      simp only [find?]
      cases ho : compare other key with
      | lt => simp only [Std.TransCmp.lt_trans ho hc]
      | eq => exact absurd ho hcompare
      | gt => rfl
    | eq =>
      simp only [hc, Option.map_eq_some_iff] at h
      obtain ⟨sum, hsum, rfl⟩ := h
      obtain rfl : key = first := Std.LawfulEqCmp.eq_of_compare hc
      simp only [find?]
      cases ho : compare other key with
      | eq => exact absurd ho hcompare
      | lt | gt => rfl
    | gt =>
      simp only [hc, Option.map_eq_some_iff] at h
      obtain ⟨added, hadded, rfl⟩ := h
      simp only [find?, ih hadded]

end

end

/-- The two parts are made side by side, and each as if by itself. -/
theorem foldlM_deal?_eq_some_iff {κ : Type} [Ord κ] {p : κ → Nat → Bool}
    {entries : Entries κ} {left right left' right' : Entries κ} :
    entries.foldlM (deal? p) (left, right) = some (left', right') ↔
      merge? left (entries.filter fun entry => p entry.1 entry.2) = some left' ∧
      merge? right (entries.filter fun entry => !p entry.1 entry.2) = some right' := by
  induction entries generalizing left right with
  | nil => simp [merge?]
  | cons entry rest ih =>
    cases hp : p entry.1 entry.2 with
    | true =>
      simp only [merge?] at ih
      cases h : insertMany? entry.1 entry.2 left <;>
        simp [deal?, merge?, hp, h, ih]
    | false =>
      simp only [merge?] at ih
      cases h : insertMany? entry.1 entry.2 right <;>
        simp [deal?, merge?, hp, h, ih]

/-! ## The sums are exact -/

open Bag (Canonical)

variable {e key : Expr} {n : Nat} {bag bag' : Bag} {entries : List (Expr × Nat)} {es : List Expr}

theorem add?_exact (h : add? e n bag = some bag') : bag' = Bag.insertPositive e n bag := by
  induction bag generalizing bag' with
  | nil =>
    obtain ⟨sum, hsum, rfl⟩ := Option.map_eq_some_iff.mp h
    obtain ⟨_, rfl⟩ := wordSum?_eq_some_iff.mp hsum
    rw [Nat.zero_add, Bag.insertPositive]
  | cons entry rest ih =>
    obtain ⟨other, m⟩ := entry
    simp only [add?] at h
    cases hc : compare e other with
    | lt =>
      have hne : e ≠ other := Expr.ne_of_compare (by simp [hc])
      simp only [hc, Option.map_eq_some_iff] at h
      obtain ⟨sum, hsum, rfl⟩ := h
      obtain ⟨_, rfl⟩ := wordSum?_eq_some_iff.mp hsum
      simp [Bag.insertPositive, hne, hc]
    | eq =>
      obtain rfl := (Expr.compare_eq_iff e other).mp hc
      simp only [hc, Option.map_eq_some_iff] at h
      obtain ⟨sum, hsum, rfl⟩ := h
      obtain ⟨_, rfl⟩ := wordSum?_eq_some_iff.mp hsum
      simp [Bag.insertPositive]
    | gt =>
      have hne : e ≠ other := Expr.ne_of_compare (by simp [hc])
      simp only [hc, Option.map_eq_some_iff] at h
      obtain ⟨added, hadded, rfl⟩ := h
      rw [ih hadded]
      simp [Bag.insertPositive, hne, hc]

theorem insertMany?_exact (h : insertMany? e n bag = some bag') :
    bag' = Bag.insertMany e n bag := by
  rw [insertMany?] at h
  rw [Bag.insertMany]
  split at h
  · rw [if_neg (by omega)]
    exact add?_exact h
  · rw [if_pos (by omega)]
    exact (Option.some.inj h).symm

theorem merge?_exact (h : merge? bag entries = some bag') : bag' = Bag.merge bag entries := by
  induction entries generalizing bag with
  | nil => exact (Option.some.inj h).symm
  | cons entry rest ih =>
    obtain ⟨inserted, hinsert, hrest⟩ := Option.bind_eq_some_iff.mp h
    obtain rfl := insertMany?_exact hinsert
    exact ih hrest

theorem extend?_exact (h : extend? bag es = some bag') : bag' = Bag.extend bag es := by
  induction es generalizing bag with
  | nil => exact (Option.some.inj h).symm
  | cons e rest ih =>
    obtain ⟨inserted, hinsert, hrest⟩ := Option.bind_eq_some_iff.mp h
    obtain rfl := insertMany?_exact hinsert
    exact ih hrest

theorem ofList?_exact (h : ofList? es = some bag) : bag = Bag.ofList es := extend?_exact h

theorem partition?_exact {p : Expr → Nat → Bool} {parts : Bag × Bag} (h : Canonical bag)
    (hparts : partition? bag p = some parts) : parts = Bag.split bag p := by
  obtain ⟨hmatching, hrest⟩ := foldlM_deal?_eq_some_iff.mp hparts
  rw [Bag.Canonical.split_eq_ofEntries h]
  exact Prod.ext (merge?_exact hmatching) (merge?_exact hrest)

/-- A total is the sum of all multiplicities, if a machine word holds it. -/
theorem total?_eq (bag : Bag) : total? bag = wordSum? 0 (Bag.total bag) := by
  have hsum (sum : Nat) (h : sum < wordCount) :
      List.foldlM (fun sum (entry : Expr × Nat) => wordSum? sum entry.2) sum bag =
        wordSum? sum (Bag.total bag) := by
    induction bag generalizing sum with
    | nil => exact (if_pos h).symm
    | cons entry rest ih =>
      obtain ⟨key, m⟩ := entry
      by_cases hm : sum + m < wordCount
      · have hfirst : wordSum? sum m = some (sum + m) := if_pos hm
        have hall : wordSum? (sum + m) (Bag.total rest) = wordSum? sum (m + Bag.total rest) := by
          simp only [wordSum?, Nat.add_assoc]
        rw [List.foldlM_cons, hfirst, Bag.total, ← hall]
        exact ih (sum + m) hm
      · have hfirst : wordSum? sum m = none := if_neg hm
        have hall : wordSum? sum (m + Bag.total rest) = none := if_neg (by omega)
        rw [List.foldlM_cons, hfirst, Bag.total, hall]
        rfl
  exact hsum 0 (by simp [wordCount])

/-- A key below the first one does not occur. -/
theorem not_mem_keys_of_lt {rest : Bag} (h : Canonical ((key, n) :: rest))
    (hlt : compare e key = .lt) : e ∉ Bag.keys ((key, n) :: rest) := by
  intro he
  rcases List.mem_cons.mp he with he | he
  · exact Expr.ne_of_compare (by simp [hlt]) he
  · cases hlt.symm.trans (Std.OrientedCmp.gt_of_lt (h.head_lt he))

/-- Since the order is total and tells apart what is not equal, a search by it misses nothing. -/
theorem find?_eq (h : Canonical bag) (e : Expr) :
    find? e bag = if Bag.contains e bag then some (Bag.count e bag) else none := by
  induction bag with
  | nil => rfl
  | cons entry rest ih =>
    obtain ⟨other, m⟩ := entry
    simp only [find?]
    cases hc : compare e other with
    | lt =>
      have habsent : Bag.contains e ((other, m) :: rest) = false := by
        rw [← Bool.not_eq_true]
        intro hcontains
        obtain ⟨entry, hm, he⟩ := List.any_eq_true.mp hcontains
        exact not_mem_keys_of_lt h hc (of_decide_eq_true he ▸ List.mem_map_of_mem hm)
      rw [habsent]
      rfl
    | eq =>
      obtain rfl := (Expr.compare_eq_iff e other).mp hc
      simp [Bag.contains, Bag.count]
    | gt =>
      have hne : e ≠ other := Expr.ne_of_compare (by simp [hc])
      simp only [ih h.tail, Bag.contains, Bag.count, List.any_cons, hne, if_false, hne.symm,
        decide_false, Bool.false_or]
      rfl

theorem contains_eq (h : Canonical bag) (e : Expr) : contains e bag = Bag.contains e bag := by
  rw [contains, find?_eq h]
  split <;> simp_all

theorem removeOne_eq (h : Canonical bag) (e : Expr) : removeOne e bag = Bag.removeOne e bag := by
  induction bag with
  | nil => rfl
  | cons entry rest ih =>
    obtain ⟨other, m⟩ := entry
    simp only [removeOne, Bag.removeOne]
    cases hc : compare e other with
    | lt =>
      have habsent : e ∉ Bag.keys ((other, m) :: rest) := not_mem_keys_of_lt h hc
      have hrest : removeOne e rest = rest := by
        cases rest with
        | nil => rfl
        | cons next more =>
          have hlt : compare e next.1 = .lt :=
            Std.TransCmp.lt_trans hc (h.head_lt List.mem_cons_self)
          simp only [removeOne, hlt]
      have hne : e ≠ other := fun he => habsent (he ▸ List.mem_cons_self)
      simp only [hne, if_false]
      rw [← ih h.tail, hrest]
    | eq =>
      obtain rfl := (Expr.compare_eq_iff e other).mp hc
      simp only [if_true]
    | gt =>
      have hne : e ≠ other := Expr.ne_of_compare (by simp [hc])
      simp only [hne, if_false]
      rw [ih h.tail]

end Entries
end Symbolic
