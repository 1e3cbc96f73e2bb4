import Symbolic.Proofs.Rewrites
import Symbolic.Proofs.Sign
import Symbolic.Proofs.Weight

/-! Folding the constants of an operation makes it lighter. -/
namespace Symbolic

namespace TwosComplement

theorem neg_or_neg_of_or {a b : Int} (h : or a b < 0) : a < 0 ∨ b < 0 := by
  cases a with
  | ofNat m =>
    cases b with
    | ofNat n => exact (Int.not_lt.mpr (Int.natCast_nonneg (m ||| n)) h).elim
    | negSucc n => exact Or.inr (Int.negSucc_lt_zero n)
  | negSucc m => exact Or.inl (Int.negSucc_lt_zero m)

theorem neg_or_neg_of_xor {a b : Int} (h : xor a b < 0) : a < 0 ∨ b < 0 := by
  cases a with
  | ofNat m =>
    cases b with
    | ofNat n => exact (Int.not_lt.mpr (Int.natCast_nonneg (m ^^^ n)) h).elim
    | negSucc n => exact Or.inr (Int.negSucc_lt_zero n)
  | negSucc m => exact Or.inl (Int.negSucc_lt_zero m)

end TwosComplement

namespace Number

variable {a b v : Number}

theorem excess_le (v : Number) : v.excess ≤ 8 := by
  simp only [excess]
  split
  · omega
  · split <;> omega

theorem four_le_excess (h : v ≠ .int 0) : 4 ≤ v.excess := by
  rw [excess, if_neg h]
  split <;> omega

theorem excess_of_isNegative (h : v.isNegative = true) : v.excess = 8 := by
  have hne : v ≠ .int 0 := by
    rintro rfl
    cases h
  rw [excess, if_neg hne, if_pos h]

/-- An operation exceeds its operands together, if it has its zero and its signs from them. -/
theorem excess_le_add (hzero : a = .int 0 → b = .int 0 → v = .int 0)
    (hneg : v.isNegative = true → a.isNegative = true ∨ b.isNegative = true) :
    v.excess ≤ a.excess + b.excess := by
  by_cases hv : v = .int 0
  · rw [hv]
    exact Nat.zero_le _
  · cases hn : v.isNegative with
    | true =>
      have := excess_le v
      rcases hneg hn with h | h
      · rw [excess_of_isNegative h]
        omega
      · rw [excess_of_isNegative h]
        omega
    | false =>
      have hfour : v.excess = 4 := by rw [excess, if_neg hv, hn]; rfl
      by_cases ha : a = .int 0
      · have := four_le_excess fun hb => hv (hzero ha hb)
        omega
      · have := four_le_excess ha
        omega

theorem isNegative_of_toBinary64 (h : v.toBinary64.isNegative = true) : v.isNegative = true := by
  cases v with
  | int i => exact decide_eq_true (Binary64.neg_of_isNegative_ofInt h)
  | float x => exact h

theorem isNegative_or_of_add (h : (a.add b).isNegative = true) :
    a.isNegative = true ∨ b.isNegative = true := by
  have inDoubles (h : (a.toBinary64.add b.toBinary64).isNegative = true) :
      a.isNegative = true ∨ b.isNegative = true :=
    (Binary64.isNegative_or_of_add h).imp isNegative_of_toBinary64 isNegative_of_toBinary64
  cases a with
  | int i =>
    cases b with
    | int j =>
      have hsum : i + j < 0 := of_decide_eq_true h
      by_cases hi : i < 0
      · exact Or.inl (decide_eq_true hi)
      · exact Or.inr (decide_eq_true (show j < 0 by omega))
    | float y => exact inDoubles h
  | float x => exact inDoubles (by cases b <;> exact h)

theorem isNegative_of_scale {count : Nat} (h : (v.scale count).isNegative = true) :
    v.isNegative = true := by
  cases v with
  | int i =>
    have hneg : i * (count : Int) < 0 := of_decide_eq_true h
    refine decide_eq_true ?_
    by_contra hpos
    have := Int.mul_nonneg (Int.not_lt.mp hpos) (Int.natCast_nonneg count)
    omega
  | float x => exact Binary64.isNegative_of_mul_ofNat h

theorem scale_zero (count : Nat) : (Number.int 0).scale count = .int 0 := by
  simp only [scale, Int.zero_mul]

theorem isNegative_ofBool (p : Bool) : (ofBool p).isNegative = false := by cases p <;> rfl

end Number

namespace SemigroupOp

variable {acc v r : Number} {count : Nat}

/-- The operators whose value never exceeds their operands together. For the others no constant that
is left weighs little. -/
def IsSubadditive : SemigroupOp → Prop
  | .add | .bitOr | .bitXor | .or => True
  | .mul | .bitAnd | .and => False

theorem excess_onIntegers {f : Int → Int → Int} (hzero : f 0 0 = 0)
    (hneg : ∀ {i j : Int}, f i j < 0 → i < 0 ∨ j < 0) (h : Number.onIntegers f acc v = .ok r) :
    r.excess ≤ acc.excess + v.excess := by
  cases acc with
  | float x => cases h
  | int i =>
    cases v with
    | float y => cases h
    | int j =>
      cases h
      refine Number.excess_le_add ?_ ?_
      · rintro ⟨⟩ ⟨⟩
        rw [hzero]
      · intro hn
        exact (hneg (of_decide_eq_true hn)).imp decide_eq_true decide_eq_true

theorem excess_accumulate {op : SemigroupOp} (hop : op.IsSubadditive)
    (h : op.accumulate acc v count = .ok r) : r.excess ≤ acc.excess + v.excess := by
  cases op with
  | add =>
    cases h
    refine Number.excess_le_add ?_ ?_
    · rintro rfl rfl
      simp only [Number.scale_zero]
      rfl
    · intro hn
      exact (Number.isNegative_or_of_add hn).imp_right Number.isNegative_of_scale
  | bitOr => exact excess_onIntegers rfl TwosComplement.neg_or_neg_of_or h
  | bitXor =>
    simp only [accumulate] at h
    split at h
    · cases h
      exact Nat.le_add_right _ _
    · exact excess_onIntegers rfl TwosComplement.neg_or_neg_of_xor h
  | or =>
    cases h
    refine Number.excess_le_add ?_ ?_
    · rintro rfl rfl
      rfl
    · intro hn
      simp only [Number.isNegative_ofBool] at hn
      cases hn
  | mul | bitAnd | and => exact hop.elim

theorem accumulate_identity (op : SemigroupOp) :
    op.accumulate op.identity op.identity 1 = .ok op.identity := by
  cases op <;> rfl

theorem excess_identity {op : SemigroupOp} (hop : op.IsSubadditive) : op.identity.excess = 0 := by
  cases op with
  | add | bitOr | bitXor | or => rfl
  | mul | bitAnd | and => exact hop.elim

end SemigroupOp

namespace Rules

open Symbolic.Expr

variable {op : SemigroupOp} {terms : Bag} {acc value : Number}

theorem constantEntries_cons_constant (v : Number) (count : Nat) (rest : Bag) :
    constantEntries ((.constant v, count) :: rest) =
      (.constant v, count) :: constantEntries rest := rfl

theorem constantEntries_cons_other {e : Expr} (h : e.isConstant = false) (count : Nat)
    (rest : Bag) :
    constantEntries ((e, count) :: rest) = constantEntries rest := by
  rw [constantEntries, List.filter_cons_of_neg (by simp [h]), constantEntries]

theorem accumulateAll_cons_other {e : Expr} (h : e.isConstant = false) (count : Nat) (rest : Bag) :
    accumulateAll op acc ((e, count) :: rest) = accumulateAll op acc rest := by
  cases e with
  | constant v => cases h
  | symbol | nary | unary | binary | conditional | call => rfl

theorem accumulateAll_cons_constant {v : Number} {count : Nat} {rest : Bag}
    (h : accumulateAll op acc ((.constant v, count) :: rest) = .ok value) :
    ∃ next, op.accumulate acc v count = .ok next ∧ accumulateAll op next rest = .ok value := by
  simp only [accumulateAll] at h
  cases hn : op.accumulate acc v count with
  | error cause => simp [hn] at h
  | ok next =>
    simp only [hn] at h
    exact ⟨next, rfl, h⟩

theorem accumulateAll_constantEntries (op : SemigroupOp) (acc : Number) (terms : Bag) :
    accumulateAll op acc (constantEntries terms) = accumulateAll op acc terms := by
  induction terms generalizing acc with
  | nil => rfl
  | cons entry rest ih =>
    obtain ⟨e, count⟩ := entry
    cases hc : e.isConstant with
    | true =>
      obtain ⟨v, rfl⟩ := isConstant_iff.mp hc
      simp only [constantEntries_cons_constant, accumulateAll]
      cases op.accumulate acc v count with
      | error cause => rfl
      | ok next => exact ih next
    | false => rw [constantEntries_cons_other hc, accumulateAll_cons_other hc, ih]

/-- What the constants exceed together bounds their combination. -/
theorem excess_accumulateAll (hop : op.IsSubadditive) (hpos : ∀ entry ∈ terms, 1 ≤ entry.2)
    (h : accumulateAll op acc terms = .ok value) :
    value.excess + Bag.total (constantEntries terms) ≤
      acc.excess + weightTerms (constantEntries terms) := by
  induction terms generalizing acc with
  | nil =>
    cases h
    exact Nat.le_refl _
  | cons entry rest ih =>
    have hrest : ∀ entry ∈ rest, 1 ≤ entry.2 := by
      intro x hx
      exact hpos x (List.mem_cons_of_mem _ hx)
    obtain ⟨e, count⟩ := entry
    cases hc : e.isConstant with
    | true =>
      obtain ⟨v, rfl⟩ := isConstant_iff.mp hc
      obtain ⟨next, hnext, hlater⟩ := accumulateAll_cons_constant h
      have hle := ih hrest hlater
      have hstep := SemigroupOp.excess_accumulate hop hnext
      have hone : 1 ≤ count := hpos _ List.mem_cons_self
      have hcopies : v.excess ≤ count * v.excess := Nat.le_mul_of_pos_left _ hone
      rw [constantEntries_cons_constant, Bag.total, weightTerms, weight, Number.weight,
        Nat.mul_add, Nat.mul_one]
      omega
    | false =>
      rw [accumulateAll_cons_other hc] at h
      rw [constantEntries_cons_other hc]
      exact ih hrest h

/-- Without an absorbing constant all constants of a product or a conjunction weigh five or more. -/
theorem five_le_weight_of_absorbing?_eq_none (hop : ¬ op.IsSubadditive)
    (hab : absorbing? (.nary op terms) = none) {v : Number} {count : Nat}
    (hm : (.constant v, count) ∈ terms) : 5 ≤ v.weight := by
  have habsorbed : absorbed? op v = none := List.findSome?_eq_none_iff.mp hab _ hm
  refine Nat.succ_le_succ (Number.four_le_excess ?_)
  rintro rfl
  cases op with
  | mul | bitAnd | and => cases habsorbed
  | add | bitOr | bitXor | or => exact hop trivial

theorem five_mul_total_le (hop : ¬ op.IsSubadditive) (hab : absorbing? (.nary op terms) = none) :
    5 * Bag.total (constantEntries terms) ≤ weightTerms (constantEntries terms) := by
  have hfive : ∀ entry ∈ constantEntries terms, 5 ≤ entry.1.weight := by
    rintro ⟨e, count⟩ hm
    obtain ⟨hm, hc⟩ := List.mem_filter.mp hm
    obtain ⟨v, rfl⟩ := isConstant_iff.mp hc
    exact five_le_weight_of_absorbing?_eq_none hop hab hm
  exact mul_total_le_weightTerms hfive

/-- A single constant that is folded is the identity, which leaves itself. -/
theorem two_le_total_of_ne_identity (hb : Bag.Canonical terms) (hne : constantEntries terms ≠ [])
    (hone : ∀ only count, constantEntries terms = [(only, count)] →
      1 < count ∨ only = .constant op.identity)
    (h : accumulateAll op op.identity terms = .ok value) (hv : value ≠ op.identity) :
    2 ≤ Bag.total (constantEntries terms) := by
  have hpos : ∀ entry ∈ constantEntries terms, 1 ≤ entry.2 := by
    intro entry hm
    exact hb.2 entry (List.mem_filter.mp hm).1
  rw [← accumulateAll_constantEntries] at h
  match hc : constantEntries terms with
  | [] => exact (hne hc).elim
  | [(only, count)] =>
    rw [hc] at h hpos
    have hcount : 1 ≤ count := hpos _ List.mem_cons_self
    rcases hone only count hc with hmany | rfl
    · simp only [Bag.total]
      omega
    · by_contra hfew
      obtain rfl : count = 1 := by simp only [Bag.total] at hfew; omega
      simp only [accumulateAll, SemigroupOp.accumulate_identity] at h
      cases h
      exact hv rfl
  | first :: second :: rest =>
    rw [hc] at hpos
    have hfirst := hpos first List.mem_cons_self
    have hsecond := hpos second (List.mem_cons_of_mem _ List.mem_cons_self)
    simp only [Bag.total]
    omega

theorem weight_folded_lt (hb : Bag.Canonical terms) (hne : constantEntries terms ≠ [])
    (hone : ∀ only count, constantEntries terms = [(only, count)] →
      1 < count ∨ only = .constant op.identity)
    (hab : absorbing? (.nary op terms) = none)
    (h : accumulateAll op op.identity terms = .ok value) (hv : value ≠ op.identity) :
    value.weight < weightTerms (constantEntries terms) := by
  have htotal := two_le_total_of_ne_identity hb hne hone h hv
  by_cases hop : op.IsSubadditive
  · have hexcess := excess_accumulateAll hop hb.2 h
    rw [SemigroupOp.excess_identity hop] at hexcess
    simp only [Number.weight]
    omega
  · have hfive := five_mul_total_le hop hab
    have height := Number.excess_le value
    simp only [Number.weight]
    omega

end Rules
end Symbolic
