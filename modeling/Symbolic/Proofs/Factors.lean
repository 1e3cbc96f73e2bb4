import Mathlib.Data.List.Induction
import Symbolic.Proofs.Rewrites

/-! The factor that is pulled out: no constant, and shared by two terms. -/
namespace Symbolic

/-- What the factors of a term are: its operands where it is an operation of `inner`, the term
itself where it is none. A constant is no factor. -/
def Expr.IsFactor (inner : SemigroupOp) (factor term : Expr) : Prop :=
  factor.isConstant = false ∧
    if term.op? = some (.semigroup inner) then factor ∈ term.children else factor = term

instance (inner : SemigroupOp) (factor term : Expr) : Decidable (factor.IsFactor inner term) :=
  inferInstanceAs (Decidable (_ ∧ _))

namespace Rules

open Symbolic.Expr

variable {op inner : SemigroupOp} {factor term : Expr} {terms : Bag}

/-- The terms that share a factor, each without it. -/
def cofactors (inner : SemigroupOp) (factor : Expr) (terms : Bag) : List (Expr × Nat) :=
  terms.filterMap fun entry =>
    (cofactor? inner factor entry.1).map fun cofactor => (cofactor, entry.2)

/-- The terms that share a factor. -/
def sharing (inner : SemigroupOp) (factor : Expr) (terms : Bag) : Bag :=
  terms.filter fun entry => (cofactor? inner factor entry.1).isSome

/-- How many distinct terms have a factor. -/
def sharers (inner : SemigroupOp) (factor : Expr) (terms : Bag) : Nat :=
  (Bag.keys terms).countP fun term => factor.IsFactor inner term

theorem factored_eq (op inner : SemigroupOp) (factor : Expr) (terms : Bag) :
    factored op inner factor terms =
      .nary op (Bag.insert (.pair inner factor
        (.nary op (Bag.ofEntries (cofactors inner factor terms))))
        (terms.filter fun entry => !(cofactor? inner factor entry.1).isSome)) := by
  simp only [factored]
  simp only [Option.not_isSome]
  rfl

/-- The first entry with the greatest count, if one has a count of two or more. -/
def Leading (counts : Bag) : Option (Expr × Nat) → Prop
  | none => ∀ entry ∈ counts, entry.2 < 2
  | some best => 2 ≤ best.2 ∧ ∃ earlier later, counts = earlier ++ best :: later ∧
      (∀ entry ∈ earlier, entry.2 < best.2) ∧ ∀ entry ∈ later, entry.2 ≤ best.2

theorem Leading.le {counts : Bag} {best : Expr × Nat} (h : Leading counts (some best)) :
    ∀ entry ∈ counts, entry.2 ≤ best.2 := by
  obtain ⟨_, earlier, later, rfl, hearlier, hlater⟩ := h
  intro entry hm
  rcases List.mem_append.mp hm with hm | hm
  · exact Nat.le_of_lt (hearlier entry hm)
  · rcases List.mem_cons.mp hm with rfl | hm
    · exact Nat.le_refl _
    · exact hlater entry hm

/-- What is kept on the way through the counts leads those that were met. -/
theorem leading_mostCommon? (counts : Bag) : Leading counts (mostCommon? counts) := by
  induction counts using List.reverseRecOn with
  | nil => exact nofun
  | append_singleton seen entry ih =>
    have hnext : mostCommon? (seen ++ [entry]) =
        if 2 ≤ entry.2 && (mostCommon? seen).all (fun b => b.2 < entry.2) then some entry
        else mostCommon? seen := by
      rw [mostCommon?, List.foldl_append]
      rfl
    rw [hnext]
    cases hseen : mostCommon? seen with
    | none =>
      rw [hseen] at ih
      split
      · next hc =>
        have htwo : 2 ≤ entry.2 := by simpa using hc
        exact ⟨htwo, seen, [], rfl, fun x hx => Nat.lt_of_lt_of_le (ih x hx) htwo, nofun⟩
      · next hc =>
        intro x hx
        rcases List.mem_append.mp hx with hx | hx
        · exact ih x hx
        · rw [List.mem_singleton.mp hx]
          simpa using hc
    | some best =>
      rw [hseen] at ih
      split
      · next hc =>
        obtain ⟨htwo, hgreater⟩ : 2 ≤ entry.2 ∧ best.2 < entry.2 := by simpa using hc
        exact ⟨htwo, seen, [], rfl, fun x hx => Nat.lt_of_le_of_lt (ih.le x hx) hgreater, nofun⟩
      · next hc =>
        have hle : 2 ≤ entry.2 → entry.2 ≤ best.2 := by simpa using hc
        obtain ⟨htwo, earlier, later, rfl, hearlier, hlater⟩ := ih
        refine ⟨htwo, earlier, later ++ [entry], by simp, hearlier, fun x hx => ?_⟩
        rcases List.mem_append.mp hx with hx | hx
        · exact hlater x hx
        · rw [List.mem_singleton.mp hx]
          omega

theorem mostCommon?_eq_some {counts : Bag} {entry : Expr × Nat}
    (h : mostCommon? counts = some entry) : entry ∈ counts ∧ 2 ≤ entry.2 := by
  have hleads := leading_mostCommon? counts
  rw [h] at hleads
  obtain ⟨htwo, earlier, later, rfl, _⟩ := hleads
  exact ⟨List.mem_append_right _ List.mem_cons_self, htwo⟩

theorem mem_factors_iff : factor ∈ factors inner term ↔ factor.IsFactor inner term := by
  cases term with
  | constant value =>
    refine iff_of_false List.not_mem_nil ?_
    rintro ⟨hc, heq⟩
    obtain rfl : factor = .constant value := heq
    cases hc
  | nary op terms =>
    by_cases ho : op = inner
    · subst ho
      simp [factors, IsFactor, Expr.op?, children, Bag.keys, and_comm]
    · have hop : (nary op terms).op? ≠ some (.semigroup inner) := by simpa [Expr.op?] using ho
      rw [factors, if_neg ho, List.mem_singleton, IsFactor, if_neg hop]
      exact ⟨fun heq => ⟨heq ▸ rfl, heq⟩, And.right⟩
  | symbol | unary | binary | conditional | call =>
    refine List.mem_singleton.trans ⟨fun heq => ⟨heq ▸ rfl, heq⟩, And.right⟩

theorem mem_factors (h : factor ∈ factors inner term) :
    factor.isConstant = false ∧ (factor = term ∨
      ∃ terms, term = .nary inner terms ∧ factor ∈ Bag.keys terms) := by
  obtain ⟨hc, hf⟩ := mem_factors_iff.mp h
  refine ⟨hc, ?_⟩
  split at hf
  · next ho =>
    cases term with
    | nary op terms =>
      cases ho
      exact Or.inr ⟨terms, rfl, hf⟩
    | constant | symbol | unary | binary | conditional | call => cases ho
  · exact Or.inl hf

theorem nodup_factors (inner : SemigroupOp) (h : term.WellFormed) : (factors inner term).Nodup := by
  cases term with
  | constant value => exact List.nodup_nil
  | nary op terms =>
    simp only [factors]
    split
    · exact h.canonical.nodup_keys.filter _
    · exact List.nodup_singleton _
  | symbol | unary | binary | conditional | call => exact List.nodup_singleton _

/-- Each term counts once for each of its factors. -/
theorem count_flatMap_factors {es : List Expr} (hw : ∀ e ∈ es, e.WellFormed) :
    (es.flatMap (factors inner)).count factor = es.countP fun e => factor.IsFactor inner e := by
  induction es with
  | nil => rfl
  | cons e rest ih =>
    have hrest := ih fun c hc => hw c (List.mem_cons_of_mem _ hc)
    have hnodup := nodup_factors inner (hw e List.mem_cons_self)
    rw [List.flatMap_cons, List.count_append, hrest, hnodup.count, List.countP_cons, Nat.add_comm]
    simp only [mem_factors_iff, decide_eq_true_eq]

/-- A term gives up each of its factors. -/
theorem isSome_cofactor? (h : factor ∈ factors inner term) :
    (cofactor? inner factor term).isSome = true := by
  unfold cofactor?
  split
  · rfl
  · next hne =>
    rcases (mem_factors h).2 with rfl | ⟨terms, rfl, hm⟩
    · exact (hne rfl).elim
    · obtain ⟨entry, hentry, rfl⟩ := List.mem_map.mp hm
      have hc : Bag.contains entry.1 terms = true :=
        List.any_eq_true.mpr ⟨entry, hentry, decide_eq_true rfl⟩
      simp [hc]

theorem exists_count_of_commonFactor? (h : commonFactor? inner terms = some factor) :
    2 ≤ ((Bag.keys terms).flatMap (factors inner)).count factor := by
  obtain ⟨⟨key, n⟩, hmost, rfl⟩ := Option.map_eq_some_iff.mp h
  obtain ⟨hm, hn⟩ := mostCommon?_eq_some hmost
  rw [← (Bag.elements_ofList _).count_eq, Bag.count_elements (Bag.canonical_ofList _) hm]
  exact hn

/-- The factor is one of some term. -/
theorem exists_mem_factors (h : commonFactor? inner terms = some factor) :
    ∃ term ∈ Bag.keys terms, factor ∈ factors inner term := by
  have hcount := exists_count_of_commonFactor? h
  have hpos : 0 < ((Bag.keys terms).flatMap (factors inner)).count factor := by omega
  obtain ⟨term, hm, hf⟩ := List.mem_flatMap.mp (List.count_pos_iff.mp hpos)
  exact ⟨term, hm, hf⟩

theorem count_factors_eq_sharers (hw : (Expr.nary op terms).WellFormed) :
    ((Bag.keys terms).flatMap (factors inner)).count factor = sharers inner factor terms :=
  count_flatMap_factors fun _ he => hw.of_mem_children he

theorem two_le_sharers (hw : (Expr.nary op terms).WellFormed)
    (h : commonFactor? inner terms = some factor) : 2 ≤ sharers inner factor terms := by
  rw [← count_factors_eq_sharers hw]
  exact exists_count_of_commonFactor? h

theorem sharers_le_length_sharing (inner : SemigroupOp) (factor : Expr) (terms : Bag) :
    sharers inner factor terms ≤ (sharing inner factor terms).length := by
  rw [sharers, Bag.keys, List.countP_map, sharing, ← List.countP_eq_length_filter]
  exact List.countP_mono_left fun entry _ hf =>
    isSome_cofactor? (mem_factors_iff.mpr (of_decide_eq_true hf))

/-- The terms that share the factor are two at least. -/
theorem two_le_total_sharing (hw : (Expr.nary op terms).WellFormed)
    (h : commonFactor? inner terms = some factor) :
    2 ≤ Bag.total (sharing inner factor terms) :=
  calc 2 ≤ sharers inner factor terms := two_le_sharers hw h
    _ ≤ (sharing inner factor terms).length := sharers_le_length_sharing inner factor terms
    _ ≤ Bag.total (sharing inner factor terms) :=
      Bag.length_le_total (Bag.canonical_filter _ hw.canonical)

end Rules
end Symbolic
