import Symbolic.Expr.Children
import Symbolic.Proofs.Bag

/-! Nodes over replaced children, and properties of all nodes of an expression. -/
namespace Symbolic.Expr

variable {e child : Expr} {parent : Option Operator}

/-- The node over the images of its children. A node whose children stay as they are is not
built anew. -/
def rebuilt (f : Expr → Expr) (e : Expr) : Expr :=
  if e.children.map f = e.children then e else e.withChildren (e.children.map f)

theorem op?_withChildren (e : Expr) (cs : List Expr) : (e.withChildren cs).op? = e.op? := by
  unfold withChildren
  split <;> rfl

@[simp] theorem op?_rebuilt (f : Expr → Expr) (e : Expr) : (e.rebuilt f).op? = e.op? := by
  simp only [rebuilt]
  split
  · rfl
  · exact op?_withChildren e _

theorem isAtomic_eq (e : Expr) : e.isAtomic = e.op?.isNone := rfl

@[simp] theorem isAtomic_rebuilt (f : Expr → Expr) (e : Expr) :
    (e.rebuilt f).isAtomic = e.isAtomic := by
  simp only [isAtomic_eq, op?_rebuilt]

theorem children_of_isAtomic (h : e.isAtomic = true) : e.children = [] := by
  cases e <;> first | rfl | exact nomatch h

theorem rebuilt_of_map_eq {f : Expr → Expr} (h : ∀ c ∈ e.children, f c = c) : e.rebuilt f = e := by
  have : e.children.map f = e.children := by
    rw [List.map_congr_left h, List.map_id']
  rw [rebuilt, if_pos this]

@[simp] theorem rebuilt_id (e : Expr) : e.rebuilt id = e := rebuilt_of_map_eq fun _ _ => rfl

theorem zip_images (f : Expr → Expr) (terms : Bag) :
    ((terms.map Prod.fst).map f).zip (terms.map Prod.snd) =
      terms.map fun entry => (f entry.1, entry.2) := by
  induction terms with
  | nil => rfl
  | cons entry rest ih => simpa using ih

theorem withChildren_nary (op : SemigroupOp) (terms : Bag) (f : Expr → Expr) :
    (nary op terms).withChildren ((nary op terms).children.map f) =
      .nary op (Bag.ofEntries (terms.map fun entry => (f entry.1, entry.2))) := by
  simp only [children, withChildren, zip_images]

theorem withChildren_children (h : ∀ bag ∈ e.bag?, Bag.Canonical bag) :
    e.withChildren e.children = e := by
  cases e with
  | nary op terms =>
    have hid := withChildren_nary op terms id
    rw [List.map_id] at hid
    rw [hid]
    exact congrArg (Expr.nary op) ((congrArg Bag.ofEntries (List.map_id' terms)).trans
      (Bag.ofEntries_of_canonical (h terms rfl)))
  | constant | symbol | unary | binary | conditional | call => rfl

/-- A node with a canonical multiset may as well be built anew where its children stay. -/
theorem rebuilt_eq_withChildren (h : ∀ bag ∈ e.bag?, Bag.Canonical bag) (f : Expr → Expr) :
    e.rebuilt f = e.withChildren (e.children.map f) := by
  rw [rebuilt]
  split
  · next hsame => rw [hsame, withChildren_children h]
  · rfl

/-- A node without a multiset has just the children that it is given. -/
theorem children_withChildren {images : List Expr} (hb : e.bag? = none)
    (h : images.length = e.children.length) :
    (e.withChildren images).children = images ∧ (e.withChildren images).bag? = none := by
  cases e with
  | constant | symbol => exact ⟨(List.length_eq_zero_iff.mp h).symm, rfl⟩
  | nary op terms => cases hb
  | unary op arg =>
    obtain ⟨arg', rfl⟩ := List.length_eq_one_iff.mp h
    exact ⟨rfl, rfl⟩
  | binary op lhs rhs =>
    obtain ⟨lhs', rhs', rfl⟩ := List.length_eq_two.mp h
    exact ⟨rfl, rfl⟩
  | conditional test whenTrue whenFalse =>
    obtain ⟨test', whenTrue', whenFalse', rfl⟩ := List.length_eq_three.mp h
    exact ⟨rfl, rfl⟩
  | call callee args =>
    obtain ⟨callee', args', rfl⟩ := List.exists_cons_of_length_eq_add_one h
    exact ⟨rfl, rfl⟩

/-- Only a multiset may lose children, where their images meet. -/
theorem children_withChildren_subset {images : List Expr}
    (h : images.length = e.children.length) : (e.withChildren images).children ⊆ images := by
  cases e with
  | nary op terms =>
    intro c hc
    obtain ⟨entry, hm, rfl⟩ := List.mem_map.mp (Bag.keys_ofEntries_subset _ hc)
    exact (List.of_mem_zip hm).1
  | constant | symbol | unary | binary | conditional | call =>
    rw [(children_withChildren rfl h).1]
    exact List.Subset.refl images

theorem mem_children_rebuilt {f : Expr → Expr} (h : child ∈ (e.rebuilt f).children) :
    ∃ c ∈ e.children, f c = child := by
  simp only [rebuilt] at h
  split at h
  · next heq =>
    rw [← heq] at h
    exact List.mem_map.mp h
  · exact List.mem_map.mp (children_withChildren_subset (List.length_map _) h)

/-- The property holds of the expression and of every node below it. -/
def Everywhere (p : Expr → Prop) (e : Expr) : Prop :=
  ∀ occurrence ∈ e.occurrences none, p occurrence.2

instance (p : Expr → Prop) [DecidablePred p] (e : Expr) : Decidable (e.Everywhere p) :=
  inferInstanceAs (Decidable (∀ occurrence ∈ e.occurrences none, p occurrence.2))

theorem forall_occurrences_iff {p : Occurrence → Prop} :
    (∀ occurrence ∈ e.occurrences parent, p occurrence) ↔
      p (parent, e) ∧ ∀ c ∈ e.children, ∀ occurrence ∈ c.occurrences e.op?, p occurrence := by
  rw [occurrences_eq_cons]
  simp only [List.forall_mem_cons, List.mem_flatMap, forall_exists_index, and_imp]
  apply and_congr_right
  intro _
  exact ⟨fun h c hc o ho => h o c hc ho, fun h o c hc ho => h c hc o ho⟩

theorem forall_occurrences_snd_iff {p : Expr → Prop} {parent' : Option Operator} :
    (∀ occurrence ∈ e.occurrences parent, p occurrence.2) ↔
      ∀ occurrence ∈ e.occurrences parent', p occurrence.2 := by
  rw [forall_occurrences_iff (p := fun o => p o.2), forall_occurrences_iff (p := fun o => p o.2)]

theorem everywhere_iff {p : Expr → Prop} :
    e.Everywhere p ↔ p e ∧ ∀ c ∈ e.children, c.Everywhere p := by
  rw [Everywhere, forall_occurrences_iff (p := fun o => p o.2)]
  apply and_congr_right
  intro _
  exact forall₂_congr fun c _ => forall_occurrences_snd_iff

theorem wellFormed_iff :
    e.WellFormed ↔ (∀ bag ∈ e.bag?, Bag.Canonical bag) ∧ ∀ c ∈ e.children, c.WellFormed :=
  everywhere_iff (p := fun e => ∀ bag ∈ e.bag?, Bag.Canonical bag)

theorem WellFormed.of_mem_children (h : e.WellFormed) (hc : child ∈ e.children) :
    child.WellFormed :=
  (wellFormed_iff.mp h).2 child hc

theorem WellFormed.canonical {op : SemigroupOp} {terms : Bag} (h : (nary op terms).WellFormed) :
    Bag.Canonical terms :=
  (wellFormed_iff.mp h).1 terms rfl

theorem wellFormed_nary {op : SemigroupOp} {terms : Bag} (h : Bag.Canonical terms)
    (hc : ∀ c ∈ Bag.keys terms, c.WellFormed) : (nary op terms).WellFormed := by
  refine wellFormed_iff.mpr ⟨?_, hc⟩
  rintro bag ⟨⟩
  exact h

theorem wellFormed_withChildren {images : List Expr} (h : images.length = e.children.length)
    (hf : ∀ c ∈ images, c.WellFormed) : (e.withChildren images).WellFormed := by
  refine wellFormed_iff.mpr ⟨?_, fun c hc => hf c (children_withChildren_subset h hc)⟩
  intro bag hbag
  cases e with
  | nary op terms =>
    obtain rfl := Option.some.inj hbag
    exact Bag.canonical_ofEntries _
  | constant | symbol | unary | binary | conditional | call =>
    exact nomatch (children_withChildren rfl h).2.symm.trans hbag

theorem wellFormed_rebuilt {f : Expr → Expr} (h : e.WellFormed)
    (hf : ∀ c ∈ e.children, (f c).WellFormed) : (e.rebuilt f).WellFormed := by
  rw [rebuilt]
  split
  · exact h
  · exact wellFormed_withChildren (List.length_map _) (List.forall_mem_map.mpr hf)

end Symbolic.Expr
