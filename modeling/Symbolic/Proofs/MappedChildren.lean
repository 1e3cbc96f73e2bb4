import Symbolic.Proofs.Multiplicities
import Symbolic.Proofs.WellStored

/-! Mapping the children of an operation: a place keeps its child's image, a multiset adds up what
meets, and the first child that fails decides the error. -/
namespace Symbolic

variable {ε : Type} {f : Expr → Except ε Expr} {g : Expr → Expr} {err : ε}

namespace Bag

variable {e y : Expr} {bag bag' : Bag} {entries seen : List (Expr × Nat)}

/-- The entries that a function maps to `y`. -/
def preimages (f : Expr → Except ε Expr) (y : Expr) (bag : Bag) : Bag :=
  bag.filter fun entry => (f entry.1).toOption = some y

/-- The second multiset has the images of the first, each as often as all that is mapped to it. -/
structure MergedBy (f : Expr → Except ε Expr) (bag bag' : Bag) : Prop where
  canonical : bag'.Canonical
  count_eq : ∀ y, count y bag' = total (preimages f y bag)
  mem_keys_iff : ∀ y, y ∈ keys bag' ↔ ∃ x ∈ keys bag, f x = .ok y
  total_eq : total bag' = total bag
  count_le : ∀ y, count y bag' ≤ total bag
  /-- It is made by insertions, and no sum on the way is larger than the one in the end. -/
  insertions : ∃ entries, bag' = ofEntries entries ∧
    List.Forall₂ (fun entry image => f entry.1 = .ok image.1 ∧ image.2 = entry.2) bag entries ∧
    ∀ seen, seen <+: entries → ∀ y, count y (ofEntries seen) ≤ count y bag'

/-- The images of the keys, each with the multiplicity of its key. Images that are equal have not
met yet. -/
def images (g : Expr → Expr) (bag : Bag) : List (Expr × Nat) :=
  bag.map fun entry => (g entry.1, entry.2)

theorem inserted_append (e : Expr) (entries entries' : List (Expr × Nat)) :
    inserted e (entries ++ entries') = inserted e entries + inserted e entries' := by
  simp only [← count_elements_eq_inserted, elements_append, List.count_append]

theorem count_ofEntries_le_of_prefix (h : seen <+: entries) (e : Expr) :
    count e (ofEntries seen) ≤ count e (ofEntries entries) := by
  obtain ⟨rest, rfl⟩ := h
  rw [count_ofEntries, count_ofEntries, inserted_append]
  omega

theorem Canonical.count_le_total (h : Canonical bag) (e : Expr) : count e bag ≤ total bag := by
  rw [h.count_eq, ← length_elements]
  exact List.count_le_length

theorem inserted_images (hf : ∀ c ∈ keys bag, f c = .ok (g c)) (y : Expr) :
    inserted y (images g bag) = total (preimages f y bag) := by
  induction bag with
  | nil => rfl
  | cons entry rest ih =>
    have hentry : f entry.1 = .ok (g entry.1) := hf _ List.mem_cons_self
    have hrest := ih fun c hc => hf c (List.mem_cons_of_mem _ hc)
    simp only [images, preimages, List.map_cons, inserted, List.filter_cons, hentry,
      Except.toOption, Option.some.injEq, decide_eq_true_eq] at hrest ⊢
    split
    · rw [hrest, total]
    · rw [hrest, Nat.zero_add]

theorem total_images (g : Expr → Expr) (bag : Bag) : total (images g bag) = total bag := by
  rw [← length_elements, images, elements_map, List.length_map, length_elements]

theorem mem_keys_ofEntries_images (h : Canonical bag) :
    y ∈ keys (ofEntries (images g bag)) ↔ ∃ x ∈ keys bag, g x = y := by
  rw [← mem_elements_iff_mem_keys (canonical_ofEntries _), (elements_ofEntries _).mem_iff, images,
    elements_map, List.mem_map]
  simp only [mem_elements_iff_mem_keys h]

theorem mergedBy_images (h : Canonical bag) (hf : ∀ c ∈ keys bag, f c = .ok (g c)) :
    MergedBy f bag (ofEntries (images g bag)) where
  canonical := canonical_ofEntries _
  count_eq y := by rw [count_ofEntries, inserted_images hf]
  mem_keys_iff y := by
    rw [mem_keys_ofEntries_images h]
    refine exists_congr fun x => and_congr_right fun hx => ?_
    rw [hf x hx, Except.ok.injEq]
  total_eq := by rw [total_ofEntries, total_images]
  count_le y := by
    rw [← total_images g, ← total_ofEntries]
    exact (canonical_ofEntries _).count_le_total y
  insertions := by
    refine ⟨images g bag, rfl, ?_, fun seen hs y => count_ofEntries_le_of_prefix hs y⟩
    rw [images, List.forall₂_map_right_iff, List.forall₂_same]
    exact fun entry hm => ⟨hf _ (List.mem_map_of_mem hm), rfl⟩

end Bag

/-- The storage of the images: of the same kind, with each image in the place of its child. -/
inductive Storage.Mapped (f : Expr → Except ε Expr) : Storage → Storage → Prop
  | multiset {bag bag' : Bag} (h : bag.MergedBy f bag') : Mapped f (.multiset bag) (.multiset bag')
  | single {child child' : Expr} (h : f child = .ok child') :
      Mapped f (.single child) (.single child')
  | ordered {children children' : List Expr}
      (h : List.Forall₂ (fun c c' => f c = .ok c') children children') :
      Mapped f (.ordered children) (.ordered children')

/-- The first child that a function fails on, in the structural order or by its place, gives
`err`. -/
inductive Storage.FirstFails (f : Expr → Except ε Expr) (err : ε) : Storage → Prop
  | multiset {bag : Bag} {child : Expr} (hm : child ∈ bag.keys) (h : f child = .error err)
      (hbefore : ∀ c ∈ bag.keys, compare c child = .lt → ∃ c', f c = .ok c') :
      FirstFails f err (.multiset bag)
  | single {child : Expr} (h : f child = .error err) : FirstFails f err (.single child)
  | ordered {earlier later : List Expr} {child : Expr} (h : f child = .error err)
      (hbefore : ∀ c ∈ earlier, ∃ c', f c = .ok c') :
      FirstFails f err (.ordered (earlier ++ child :: later))

namespace Expr

variable {op : Operator} {e e' : Expr} {es : List Expr} {storage : Storage}

/-- The error is that of the first expression that fails. -/
theorem mapAll_eq_error_iff : mapAll f es = .error err ↔ ∃ earlier c later,
    es = earlier ++ c :: later ∧ (∀ x ∈ earlier, ∃ x', f x = .ok x') ∧ f c = .error err := by
  induction es with
  | nil => simp [mapAll]
  | cons e rest ih =>
    cases he : f e with
    | error err' =>
      simp only [mapAll, he, Except.error.injEq]
      constructor
      · rintro rfl
        exact ⟨[], e, rest, rfl, by simp, he⟩
      · rintro ⟨earlier, c, later, hsplit, hbefore, hc⟩
        rcases List.cons_eq_append_iff.mp hsplit with ⟨rfl, hhead⟩ | ⟨others, rfl, _⟩
        · cases hhead
          rw [he, Except.error.injEq] at hc
          exact hc
        · obtain ⟨image, hi⟩ := hbefore e List.mem_cons_self
          rw [he] at hi
          cases hi
    | ok image =>
      have hrest : mapAll f (e :: rest) = .error err ↔ mapAll f rest = .error err := by
        simp only [mapAll, he]
        cases mapAll f rest <;> simp
      rw [hrest, ih]
      constructor
      · rintro ⟨earlier, c, later, rfl, hbefore, hc⟩
        exact ⟨e :: earlier, c, later, rfl, List.forall_mem_cons.mpr ⟨⟨image, he⟩, hbefore⟩, hc⟩
      · rintro ⟨earlier, c, later, hsplit, hbefore, hc⟩
        rcases List.cons_eq_append_iff.mp hsplit with ⟨rfl, hhead⟩ | ⟨others, rfl, rfl⟩
        · cases hhead
          rw [he] at hc
          cases hc
        · exact ⟨others, c, later, rfl, fun x hx => hbefore x (List.mem_cons_of_mem _ hx), hc⟩

theorem mapAll_singleton_eq_error_iff : mapAll f [e] = .error err ↔ f e = .error err := by
  cases h : f e <;> simp [mapAll, h]

theorem mapChildren_eq_error_iff :
    mapChildren f e = .error err ↔ mapAll f e.children = .error err := by
  rw [mapChildren]
  cases mapAll f e.children <;> simp [Except.map]

/-- If each child has an image, the operation has one. -/
theorem exists_mapChildren_eq_ok (h : ∀ c ∈ e.children, ∃ c', f c = .ok c') :
    ∃ e', mapChildren f e = .ok e' := by
  cases hm : mapChildren f e with
  | ok e' => exact ⟨e', rfl⟩
  | error err =>
    obtain ⟨earlier, c, later, hsplit, _, hc⟩ :=
      mapAll_eq_error_iff.mp (mapChildren_eq_error_iff.mp hm)
    obtain ⟨c', hok⟩ := h c (by simp [hsplit])
    rw [hc] at hok
    cases hok

theorem firstFails_single_iff : (Storage.single e).FirstFails f err ↔ f e = .error err := by
  constructor
  · intro h
    cases h with
    | single hc => exact hc
  · exact .single

theorem firstFails_ordered_iff {children : List Expr} :
    (Storage.ordered children).FirstFails f err ↔ ∃ earlier c later,
      children = earlier ++ c :: later ∧ (∀ x ∈ earlier, ∃ x', f x = .ok x') ∧
      f c = .error err := by
  constructor
  · intro h
    cases h with
    | ordered hc hbefore => exact ⟨_, _, _, rfl, hbefore, hc⟩
  · rintro ⟨earlier, c, later, rfl, hbefore, hc⟩
    exact .ordered hc hbefore

/-- In a canonical multiset the keys before a key are the smaller ones. -/
theorem firstFails_multiset_iff {bag : Bag} (h : bag.Canonical) :
    (Storage.multiset bag).FirstFails f err ↔ ∃ earlier c later,
      bag.keys = earlier ++ c :: later ∧ (∀ x ∈ earlier, ∃ x', f x = .ok x') ∧
      f c = .error err := by
  have hincreasing : bag.keys.Pairwise fun a b => compare a b = .lt := List.pairwise_map.mpr h.1
  constructor
  · intro h
    cases h with
    | @multiset _ c hm hc hbefore =>
      obtain ⟨earlier, later, hsplit⟩ := List.append_of_mem hm
      rw [hsplit, List.pairwise_append] at hincreasing
      refine ⟨earlier, c, later, hsplit, fun x hx => hbefore x ?_ ?_, hc⟩
      · simp [hsplit, hx]
      · exact hincreasing.2.2 x hx c List.mem_cons_self
  · rintro ⟨earlier, c, later, hsplit, hbefore, hc⟩
    refine .multiset (by simp [hsplit]) hc fun x hx hlt => ?_
    rw [hsplit, List.pairwise_append, List.pairwise_cons] at hincreasing
    rw [hsplit, List.mem_append, List.mem_cons] at hx
    rcases hx with hx | hx | hx
    · exact hbefore x hx
    · exact (Expr.ne_of_compare (by simp [hlt]) hx).elim
    · rw [Std.OrientedCmp.gt_of_lt (hincreasing.2.1.1 x hx)] at hlt
      cases hlt

/-- Mapping the children of an operation fails as the first of them does that fails. -/
theorem mapChildren_eq_error_iff_firstFails (hs : e.WellStored)
    (hstorage : e.storage? = some storage) :
    mapChildren f e = .error err ↔ storage.FirstFails f err := by
  rw [mapChildren_eq_error_iff]
  cases e with
  | constant | symbol => cases hstorage
  | nary op terms =>
    cases hstorage
    have hcanonical : Bag.Canonical terms := wellStored_iff.mp hs terms rfl
    exact mapAll_eq_error_iff.trans (firstFails_multiset_iff hcanonical).symm
  | unary op arg =>
    cases hstorage
    exact mapAll_singleton_eq_error_iff.trans firstFails_single_iff.symm
  | binary | conditional | call =>
    cases hstorage
    exact mapAll_eq_error_iff.trans firstFails_ordered_iff.symm

/-- The images have the same operator, in the same kind of storage. -/
theorem mapped_of_mapChildren_eq_ok (hs : e.WellStored) (hstorage : e.storage? = some storage)
    (h : mapChildren f e = .ok e') :
    e'.op? = e.op? ∧ ∃ storage', e'.storage? = some storage' ∧ storage.Mapped f storage' := by
  obtain ⟨g, hg, rfl⟩ := exists_of_mapChildren_eq_ok h
  refine ⟨op?_withChildren e _, ?_⟩
  have hplaces : List.Forall₂ (fun c c' => f c = .ok c') e.children (e.children.map g) := by
    rw [List.forall₂_map_right_iff, List.forall₂_same]
    exact hg
  cases e with
  | constant | symbol => cases hstorage
  | nary op terms =>
    cases hstorage
    rw [withChildren_nary]
    exact ⟨_, rfl, .multiset (Bag.mergedBy_images (wellStored_iff.mp hs terms rfl) hg)⟩
  | unary op arg =>
    cases hstorage
    exact ⟨_, rfl, .single (hg arg List.mem_cons_self)⟩
  | binary | conditional | call =>
    cases hstorage
    exact ⟨_, rfl, .ordered hplaces⟩

theorem fits_of_mapped {storage' : Storage} (h : storage.Mapped f storage') (hf : storage.Fits op) :
    storage'.Fits op := by
  cases h with
  | multiset h => cases op <;> first | exact h.canonical | exact hf.elim
  | single => cases op <;> exact hf
  | ordered h =>
    have hlength := h.length_eq
    cases op <;> simp_all [Storage.Fits, Operator.operatorClass]

/-- An operation whose children all have images is mapped to an operation of the same operator,
stored in the same way: where children have a place their images have it, and in a multiset each
expression is there as often as all that is mapped to it, with no larger sum on the way. Where a
child fails, the first in the structural order or by its place gives the error. -/
theorem mapChildren_merges (hs : e.WellStored) (ho : e.op? = some op) (f : Expr → Except ε Expr) :
    ∃ storage, e.storage? = some storage ∧
      ((∀ c ∈ e.children, ∃ c', f c = .ok c') → ∃ e' storage',
        mapChildren f e = .ok e' ∧ e'.op? = some op ∧ e'.storage? = some storage' ∧
          storage'.Fits op ∧ storage.Mapped f storage') ∧
      ((∃ c ∈ e.children, ∃ err, f c = .error err) → ∃ err, mapChildren f e = .error err) ∧
      ∀ err, mapChildren f e = .error err ↔ storage.FirstFails f err := by
  obtain ⟨storage, hstorage⟩ : ∃ storage, e.storage? = some storage := by
    cases e <;> first | exact ⟨_, rfl⟩ | cases ho
  refine ⟨storage, hstorage, fun hall => ?_, ?_, fun err => ?_⟩
  · obtain ⟨e', he'⟩ := exists_mapChildren_eq_ok hall
    obtain ⟨hop, storage', hstorage', hmapped⟩ := mapped_of_mapChildren_eq_ok hs hstorage he'
    have hfits : storage'.Fits op := fits_of_mapped hmapped (hs op ho storage hstorage)
    exact ⟨e', storage', he', hop.trans ho, hstorage', hfits, hmapped⟩
  · rintro ⟨c, hm, err, hc⟩
    cases hr : mapChildren f e with
    | error err' => exact ⟨err', rfl⟩
    | ok e' =>
      obtain ⟨g, hg, _⟩ := exists_of_mapChildren_eq_ok hr
      cases hc.symm.trans (hg c hm)
  · exact mapChildren_eq_error_iff_firstFails hs hstorage

/-- In `x + x + y + y + y + z` the images of `x` and `y` meet, and of `y` and `z` it is `y` whose
failure is reported. -/
theorem mapChildren_merges_of_sum :
    let e := nary .add [(symbol "x", 2), (symbol "y", 3), (symbol "z", 1)]
    let meeting : Expr → Except String Expr :=
      fun c => .ok (if c = symbol "z" then c else symbol "w")
    let failing : Expr → Except String Expr := fun c =>
      if c = symbol "x" then .ok c else .error (c.symbol?.getD "")
    e.WellStored ∧ e.op? = some (.semigroup .add) ∧
      (∃ e' bag', mapChildren meeting e = .ok e' ∧ e'.op? = some (.semigroup .add) ∧
        e'.storage? = some (.multiset bag') ∧ bag'.count (symbol "w") = 5 ∧ bag'.total = 6) ∧
      mapChildren failing e = .error "y" := by
  intro e meeting failing
  have hs : e.WellStored := wellStored_iff.mpr (by decide)
  obtain ⟨_, hstorage, hmapped, _⟩ := mapChildren_merges hs rfl meeting
  obtain ⟨_, hstorage', _, _, hfirst⟩ := mapChildren_merges hs rfl failing
  cases hstorage
  cases hstorage'
  obtain ⟨e', _, he', hop, hbag, _, hm⟩ := hmapped fun c _ => ⟨_, rfl⟩
  cases hm with
  | @multiset _ bag' hmerged =>
    refine ⟨hs, rfl, ⟨e', bag', he', hop, hbag, ?_, ?_⟩, (hfirst "y").mpr ?_⟩
    · exact (hmerged.count_eq _).trans (by decide)
    · exact hmerged.total_eq
    · refine .multiset (List.mem_cons_of_mem _ List.mem_cons_self) (by decide) ?_
      intro c hc hlt
      rcases List.mem_cons.mp hc with rfl | hc
      · exact ⟨symbol "x", by decide⟩
      · have hlater : ∀ c ∈ [symbol "y", symbol "z"], compare c (symbol "y") ≠ .lt := by decide
        exact (hlater c hc hlt).elim

end Expr
end Symbolic
