import Symbolic.Proofs.Bag

/-! Equality of expressions as the structural order sees it: doubles are told apart by their bits,
and multisets by the multiplicities of their elements. -/
namespace Symbolic

namespace Bag

variable {e : Expr} {bag bag' : Bag}

/-- How many occurrences of an expression a sequence of insertions adds. -/
def inserted (e : Expr) : List (Expr × Nat) → Nat
  | [] => 0
  | (key, n) :: rest => (if key = e then n else 0) + inserted e rest

theorem count_elements_eq_inserted (e : Expr) (entries : List (Expr × Nat)) :
    (elements entries).count e = inserted e entries := by
  induction entries with
  | nil => rfl
  | cons entry rest ih => simp [inserted, List.count_replicate, ih]

theorem Canonical.count_eq (h : Canonical bag) (e : Expr) :
    count e bag = (elements bag).count e := by
  induction bag with
  | nil => rfl
  | cons entry rest ih =>
    obtain ⟨key, n⟩ := entry
    by_cases he : e = key
    · subst he
      rw [count_elements h List.mem_cons_self]
      simp [count]
    · have hne : key ≠ e := fun heq => he heq.symm
      simp [count, he, hne, List.count_replicate, ih h.tail]

/-- A multiset that is built by insertions has the sums of what was inserted. -/
theorem count_ofEntries (e : Expr) (entries : List (Expr × Nat)) :
    count e (ofEntries entries) = inserted e entries := by
  rw [(canonical_ofEntries entries).count_eq, (elements_ofEntries entries).count_eq,
    count_elements_eq_inserted]

theorem Canonical.eq_iff_count (h : Canonical bag) (h' : Canonical bag') :
    bag = bag' ↔ ∀ e, count e bag = count e bag' := by
  constructor
  · rintro rfl e
    rfl
  · intro hcount
    apply h.eq_of_perm h'
    rw [List.perm_iff_count]
    intro e
    rw [← h.count_eq, ← h'.count_eq]
    exact hcount e

end Bag

namespace Expr

theorem nary_eq_iff_count {op op' : SemigroupOp} {terms terms' : Bag} (h : terms.Canonical)
    (h' : terms'.Canonical) :
    nary op terms = nary op' terms' ↔ op = op' ∧ ∀ e, Bag.count e terms = Bag.count e terms' := by
  rw [nary.injEq, h.eq_iff_count h']

theorem nary_ofEntries_eq_iff {op op' : SemigroupOp} {entries entries' : List (Expr × Nat)} :
    nary op (Bag.ofEntries entries) = nary op' (Bag.ofEntries entries') ↔
      op = op' ∧ ∀ e, Bag.inserted e entries = Bag.inserted e entries' := by
  rw [nary_eq_iff_count (Bag.canonical_ofEntries _) (Bag.canonical_ofEntries _)]
  simp only [Bag.count_ofEntries]

/-- Of doubles only the bits count: a NaN equals itself, and the two zeros differ. -/
theorem float_eq_iff_bits {x y : Binary64} :
    constant (.float x) = constant (.float y) ↔ x.bits = y.bits := by
  constructor
  · intro h
    cases h
    rfl
  · intro h
    have hsame : x = y := by
      cases x
      cases y
      exact congrArg Binary64.mk h
    rw [hsame]

/-- The structural order is total and transitive, and finds equal what is equal: doubles of the same
bits, and semigroup operations whose operands have the same multiplicities, in whatever order they
were inserted. -/
theorem compare_total_and_lawful (a b c : Expr) :
    compare a b = (compare b a).swap ∧ (compare a b = .eq ↔ a = b) ∧
    (∀ o : Ordering, compare a b = o → compare b c = o → compare a c = o) ∧
    ((compare a b).isLE = true → (compare b c).isLE = true → (compare a c).isLE = true) ∧
    (∀ x y : Binary64, constant (.float x) = constant (.float y) ↔ x.bits = y.bits) ∧
    (∀ (op op' : SemigroupOp) (terms terms' : Bag), terms.Canonical → terms'.Canonical →
      (nary op terms = nary op' terms' ↔
        op = op' ∧ ∀ e, Bag.count e terms = Bag.count e terms')) ∧
    ∀ (op op' : SemigroupOp) (entries entries' : List (Expr × Nat)),
      nary op (Bag.ofEntries entries) = nary op' (Bag.ofEntries entries') ↔
        op = op' ∧ ∀ e, Bag.inserted e entries = Bag.inserted e entries' := by
  have htrans (o : Ordering) (hab : compare a b = o) (hbc : compare b c = o) : compare a c = o := by
    cases o with
    | lt => exact Std.TransCmp.lt_trans hab hbc
    | eq => exact Std.TransCmp.eq_trans hab hbc
    | gt => exact Std.TransCmp.gt_trans hab hbc
  exact ⟨Std.OrientedCmp.eq_swap, compare_eq_iff a b, htrans, Std.TransCmp.isLE_trans,
    fun _ _ => float_eq_iff_bits, fun _ _ _ _ => nary_eq_iff_count,
    fun _ _ _ _ => nary_ofEntries_eq_iff⟩

/-- Products come after sums, and these after doubles. In a sum the doubles `NaN` and `-0.0` stand
before `x`, and one copy of `x` is not two, but two insertions of it are, on whichever side of the
`NaN`. -/
theorem compare_total_and_lawful_of_nan :
    let x := symbol "x"
    let nan := constant (.float .invalid)
    let sum := nary .add [(nan, 1), (constant (.float (.ofParts true 0)), 1), (x, 2)]
    let product := nary .mul [(x, 3)]
    compare nan sum = .lt ∧ compare sum product = .lt ∧ compare nan product = .lt ∧
      (compare nan product).isLE = true ∧ nary .add [(x, 1)] ≠ nary .add [(x, 2)] ∧
      nary .add (Bag.ofEntries [(x, 1), (nan, 1), (x, 1)]) =
        nary .add (Bag.ofEntries [(nan, 1), (x, 2)]) := by
  have h := compare_total_and_lawful (constant (.float .invalid))
    (nary .add [(constant (.float .invalid), 1), (constant (.float (.ofParts true 0)), 1),
      (symbol "x", 2)]) (nary .mul [(symbol "x", 3)])
  obtain ⟨_, _, htrans, hle, _, hcanonical, hinserted⟩ := h
  refine ⟨by decide, by decide, htrans .lt (by decide) (by decide), hle (by decide) (by decide), ?_,
    (hinserted _ _ _ _).mpr ⟨rfl, ?_⟩⟩
  · intro hsame
    have hcount := ((hcanonical _ _ _ _ (by decide) (by decide)).mp hsame).2 (symbol "x")
    exact absurd hcount (by decide)
  · intro e
    simp only [Bag.inserted]
    split <;> omega

end Expr
end Symbolic
