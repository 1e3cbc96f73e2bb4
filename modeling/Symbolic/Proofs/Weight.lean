import Mathlib.Algebra.Order.BigOperators.Group.List
import Mathlib.Algebra.Order.Ring.Int
import Mathlib.Algebra.Order.Ring.Nat
import Symbolic.Proofs.Children

/-! A weight of expressions that counts every copy of a term, whatever the multiset that holds
it. -/
namespace Symbolic

/-- What a constant weighs beyond the least. Negation relieves a negative constant of its sign. -/
def Number.excess (v : Number) : Nat := if v = .int 0 then 0 else if v.isNegative then 8 else 4

def Number.weight (v : Number) : Nat := v.excess + 1

/-- A sum weighs little, since a difference that is compared with zero becomes two sums. -/
def SemigroupOp.weight : SemigroupOp → Nat
  | .add => 2
  | .mul | .bitAnd | .bitOr | .bitXor | .and | .or => 10

namespace Expr

mutual

/-- Symbols and calls outweigh the operations that repetition and factoring add. -/
def weight : Expr → Nat
  | .constant value => value.weight
  | .symbol _ => 50
  | .nary op terms => op.weight + weightTerms terms
  | .unary _ arg => 10 + arg.weight
  | .binary _ lhs rhs => 20 + (lhs.weight + rhs.weight)
  | .conditional test whenTrue whenFalse =>
    1 + (test.weight + (whenTrue.weight + whenFalse.weight))
  | .call callee args => 50 + (callee.weight + weightArgs args)
termination_by structural e => e

def weightTerms : List (Expr × Nat) → Nat
  | [] => 0
  | (e, n) :: rest => n * e.weight + weightTerms rest
termination_by structural terms => terms

def weightArgs : List Expr → Nat
  | [] => 0
  | e :: rest => e.weight + weightArgs rest
termination_by structural args => args

end

variable {e : Expr} {terms bag : Bag}

theorem weight_nary (op : SemigroupOp) (terms : Bag) :
    (nary op terms).weight = op.weight + weightTerms terms := rfl

theorem weight_unary (op : UnaryOp) (arg : Expr) : (unary op arg).weight = 10 + arg.weight := rfl

theorem weight_binary (op : BinaryOp) (lhs rhs : Expr) :
    (binary op lhs rhs).weight = 20 + (lhs.weight + rhs.weight) := rfl

theorem weight_conditional (test whenTrue whenFalse : Expr) :
    (conditional test whenTrue whenFalse).weight =
      1 + (test.weight + (whenTrue.weight + whenFalse.weight)) := rfl

theorem weightArgs_eq_sum (args : List Expr) : weightArgs args = (args.map weight).sum := by
  induction args with
  | nil => rfl
  | cons e rest ih => rw [weightArgs, List.map_cons, List.sum_cons, ih]

theorem weightTerms_eq_sum (terms : Bag) :
    weightTerms terms = (terms.map fun entry => entry.2 * entry.1.weight).sum := by
  induction terms with
  | nil => rfl
  | cons entry rest ih => rw [weightTerms, List.map_cons, List.sum_cons, ih]

theorem weightTerms_eq_elements (terms : Bag) :
    weightTerms terms = ((Bag.elements terms).map weight).sum := by
  induction terms with
  | nil => rfl
  | cons entry rest ih =>
    rw [weightTerms, ih, Bag.elements_cons, List.map_append, List.sum_append, List.map_replicate,
      List.sum_replicate_nat]

theorem weightTerms_of_perm (h : (Bag.elements terms).Perm (Bag.elements bag)) :
    weightTerms terms = weightTerms bag := by
  rw [weightTerms_eq_elements, weightTerms_eq_elements, (h.map weight).sum_eq]

@[simp] theorem weightTerms_append (terms bag : Bag) :
    weightTerms (terms ++ bag) = weightTerms terms + weightTerms bag := by
  rw [weightTerms_eq_sum, List.map_append, List.sum_append, ← weightTerms_eq_sum,
    ← weightTerms_eq_sum]

@[simp] theorem weightTerms_ofEntries (entries : List (Expr × Nat)) :
    weightTerms (Bag.ofEntries entries) = weightTerms entries :=
  weightTerms_of_perm (Bag.elements_ofEntries entries)

@[simp] theorem weightTerms_merge (bag : Bag) (entries : List (Expr × Nat)) :
    weightTerms (Bag.merge bag entries) = weightTerms entries + weightTerms bag := by
  rw [← weightTerms_append]
  refine weightTerms_of_perm ?_
  simp only [Bag.elements_append]
  exact Bag.elements_merge bag entries

@[simp] theorem weightTerms_insert (e : Expr) (bag : Bag) :
    weightTerms (Bag.insert e bag) = e.weight + weightTerms bag := by
  rw [weightTerms_eq_elements, ((Bag.elements_insert e bag).map weight).sum_eq, List.map_cons,
    List.sum_cons, ← weightTerms_eq_elements]

@[simp] theorem weightTerms_ofList (es : List Expr) :
    weightTerms (Bag.ofList es) = weightArgs es := by
  rw [weightTerms_eq_elements, ((Bag.elements_ofList es).map weight).sum_eq, weightArgs_eq_sum]

theorem weightTerms_removeOne (hb : Bag.Canonical bag) (h : Bag.contains e bag = true) :
    e.weight + weightTerms (Bag.removeOne e bag) = weightTerms bag := by
  rw [weightTerms_eq_elements bag, ← ((Bag.elements_removeOne hb.2 h).map weight).sum_eq,
    List.map_cons, List.sum_cons, weightTerms_eq_elements]

/-- The entries that satisfy a predicate and those that do not weigh what all weigh. -/
theorem weightTerms_filter_add (p : Expr × Nat → Bool) (terms : Bag) :
    weightTerms (terms.filter p) + weightTerms (terms.filter fun entry => !p entry) =
      weightTerms terms := by
  rw [← weightTerms_append]
  refine weightTerms_of_perm ?_
  simp only [Bag.elements_append]
  exact Bag.elements_filter_append p terms

theorem weight_pos (e : Expr) : 0 < e.weight := by
  cases e with
  | constant value =>
    simp only [weight, Number.weight]
    omega
  | nary op terms =>
    simp only [weight]
    cases op <;> simp only [SemigroupOp.weight] <;> omega
  | symbol | unary | binary | conditional | call =>
    simp only [weight]
    omega

theorem weightTerms_pos (h : ∃ entry ∈ terms, 1 ≤ entry.2) : 0 < weightTerms terms := by
  obtain ⟨entry, hm, hn⟩ := h
  have hle := List.single_le_sum (l := terms.map fun entry => entry.2 * entry.1.weight)
    (fun x _ => Nat.zero_le x) _ (List.mem_map_of_mem hm)
  simp only [weightTerms_eq_sum]
  exact Nat.lt_of_lt_of_le (Nat.mul_pos hn entry.1.weight_pos) hle

theorem mul_total_le_weightTerms {k : Nat} (h : ∀ entry ∈ terms, k ≤ entry.1.weight) :
    k * Bag.total terms ≤ weightTerms terms := by
  induction terms with
  | nil => exact Nat.le_refl 0
  | cons entry rest ih =>
    have hrest := ih fun x hx => h x (List.mem_cons_of_mem _ hx)
    have hcopies := Nat.mul_le_mul_left entry.2 (h entry List.mem_cons_self)
    rw [Bag.total, weightTerms, Nat.mul_add, Nat.mul_comm k]
    exact Nat.add_le_add hcopies hrest

/-- Copies of a key weigh as often as it occurs. -/
theorem weight_le_weightTerms (hb : Bag.Canonical terms) (h : e ∈ Bag.keys terms) :
    e.weight ≤ weightTerms terms := by
  obtain ⟨entry, hm, rfl⟩ := List.mem_map.mp h
  simp only [weightTerms_eq_elements]
  refine List.single_le_sum (fun x _ => Nat.zero_le x) _ (List.mem_map_of_mem ?_)
  exact (Bag.mem_elements_iff_mem_keys hb).mpr (List.mem_map_of_mem hm)

end Expr
end Symbolic
