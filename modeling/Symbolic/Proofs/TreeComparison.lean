import Symbolic.Proofs.Legal
import Symbolic.Proofs.TreeRules

/-! The rules on comparisons, on trees. A difference is sorted into its terms entry by entry. -/
namespace Symbolic

namespace Rules

variable {image? : Expr → Option Expr} {terms : Bag}

/-- One entry more: its image, if it has one, and else itself, each in a multiset of its own. -/
def dealt (image? : Expr → Option Expr) (parts : Bag × Bag) (entry : Expr × Nat) : Bag × Bag :=
  match image? entry.1 with
  | some image => (Bag.insertMany image entry.2 parts.1, parts.2)
  | none => (parts.1, Bag.insertMany entry.1 entry.2 parts.2)

/-- Entries are dealt as two selections of them are merged. -/
theorem foldl_dealt (image? : Expr → Option Expr) (terms : List (Expr × Nat)) (parts : Bag × Bag) :
    terms.foldl (dealt image?) parts =
      (Bag.merge parts.1 (terms.filterMap fun (term, count) =>
          (image? term).map fun image => (image, count)),
        Bag.merge parts.2 (terms.filter fun entry => (image? entry.1).isNone)) := by
  induction terms generalizing parts with
  | nil => rfl
  | cons entry rest ih =>
    rw [List.foldl_cons, ih]
    cases h : image? entry.1 <;> simp [dealt, h, Bag.merge]

/-- Of a canonical multiset the entries without an image stay as they are. -/
theorem foldl_dealt_of_canonical (h : terms.Canonical) (image? : Expr → Option Expr) :
    terms.foldl (dealt image?) ([], []) =
      (Bag.ofEntries (terms.filterMap fun (term, count) =>
          (image? term).map fun image => (image, count)),
        terms.filter fun entry => (image? entry.1).isNone) := by
  have hrest : Bag.Canonical (terms.filter fun entry => (image? entry.1).isNone) :=
    Bag.canonical_filter (fun entry => (image? entry.1).isNone) h
  rw [foldl_dealt]
  exact Prod.ext rfl (Bag.ofEntries_of_canonical hrest)

end Rules

namespace Tree.Rules

open Entries (mapKeys)

variable {e : Expr} {terms : Bag} {image? : Expr → Option Expr}
  {treeImage? : Tree → Attempt (Option Tree)}

/-- Trees are dealt as their expressions are, if their images are found so. -/
theorem follows_dealt (h : terms.Canonical)
    (himage : ∀ term ∈ Bag.keys terms,
      Follows (treeImage? (ofExpr term)) (.ok ((image? term).map ofExpr))) :
    Follows ((mapKeys ofExpr terms).foldlM (dealt treeImage?) ([], []))
      (.ok (mapKeys ofExpr (Bag.ofEntries (terms.filterMap fun (term, count) =>
          (image? term).map fun image => (image, count))),
        mapKeys ofExpr (terms.filter fun entry => (image? entry.1).isNone))) := by
  have hfold : Follows ((mapKeys ofExpr terms).foldlM (dealt treeImage?) ([], []))
      (.ok (Prod.map (mapKeys ofExpr) (mapKeys ofExpr)
        (terms.foldl (Symbolic.Rules.dealt image?) ([], [])))) := by
    have hstep (parts : Bag × Bag) (entry : Expr × Nat) (hm : entry ∈ terms) :
        Follows (dealt treeImage? (Prod.map (mapKeys ofExpr) (mapKeys ofExpr) parts)
            (ofExpr entry.1, entry.2))
          (.ok (Prod.map (mapKeys ofExpr) (mapKeys ofExpr)
            (Symbolic.Rules.dealt image? parts entry))) := by
      refine (himage entry.1 (List.mem_map_of_mem hm)).bind_ok ?_
      rw [Symbolic.Rules.dealt]
      cases image? entry.1 with
      | some image => exact (follows_insertMany image entry.2 parts.1).bind_ok (.ok _)
      | none => exact (follows_insertMany entry.1 entry.2 parts.2).bind_ok (.ok _)
    exact Follows.foldlM hstep ([], [])
  rw [Symbolic.Rules.foldl_dealt_of_canonical h] at hfold
  exact hfold

theorem selfCompare_refines : selfCompare.Refines Symbolic.Rules.selfCompare where
  name_eq := rfl
  trigger_eq := rfl
  applies ctx e _ := by
    simp only [selfCompare, Symbolic.Rules.selfCompare, operands?_ofExpr, Option.any_map]
    refine .of_eq (congrArg (Option.any · e.operands?) (funext fun operands => ?_))
    simp
  rewrite ctx e _ := by
    simp only [selfCompare, Symbolic.Rules.selfCompare, isOp_ofExpr]
    exact .ok _

theorem negatedCompare_refines : negatedCompare.Refines Symbolic.Rules.negatedCompare where
  name_eq := rfl
  trigger_eq := rfl
  applies ctx e _ := by
    simp only [negatedCompare, Symbolic.Rules.negatedCompare, places_ofExpr, List.head?_map]
    cases e.ordered.head? with
    | none => exact .ok _
    | some inner => exact .of_eq (congrArg (Option.any Operator.isComparison) (op?_ofExpr inner))
  rewrite ctx e _ := by
    simp only [negatedCompare, Symbolic.Rules.negatedCompare, places_ofExpr, List.head?_map]
    cases e.ordered.head? with
    | none => exact .ok _
    | some inner =>
      simp only [Option.map_some, op?_ofExpr, operands?_ofExpr]
      cases inner with
      | binary op lhs rhs =>
        cases op with
        | eq => exact follows_operation (.binary .ne) [lhs, rhs]
        | ne => exact follows_operation (.binary .eq) [lhs, rhs]
        | lt => exact follows_operation (.binary .le) [rhs, lhs]
        | le => exact follows_operation (.binary .lt) [rhs, lhs]
        | floorDiv | trueDiv | mod | shr | pow | rol | ror => exact .ok _
      | constant | symbol | nary | unary | conditional | call => exact .ok _

theorem comparedWithZero?_ofExpr (e : Expr) :
    comparedWithZero? (ofExpr e) = (Symbolic.Rules.comparedWithZero? e).map ofExpr := by
  rw [comparedWithZero?, Symbolic.Rules.comparedWithZero?, operands?_ofExpr]
  cases e.operands? with
  | none => rfl
  | some operands =>
    simp only [Option.map_some, Option.bind_some, Prod.map, isInt_ofExpr]
    split
    · rfl
    · split <;> rfl

theorem compareZero_refines : compareZero.Refines Symbolic.Rules.compareZero where
  name_eq := rfl
  trigger_eq := rfl
  applies ctx e _ := by
    simp only [compareZero, Symbolic.Rules.compareZero, comparedWithZero?_ofExpr, Option.isSome_map]
    exact .ok _
  rewrite ctx e _ := by
    simp only [compareZero, Symbolic.Rules.compareZero, comparedWithZero?_ofExpr, isOp_ofExpr]
    cases Symbolic.Rules.comparedWithZero? e with
    | none => exact .ok _
    | some operand =>
      simp only [Option.map_some, decide_eq_true_eq]
      split <;> exact .ok _

theorem negativeCoefficient?_ofExpr (terms : List (Expr × Nat)) :
    negativeCoefficient? (mapKeys ofExpr terms) =
      (Symbolic.Rules.negativeCoefficient? terms).map fun value => (.constant value, value) := by
  induction terms with
  | nil => rfl
  | cons entry rest ih =>
    obtain ⟨e, count⟩ := entry
    rw [negativeCoefficient?, Symbolic.Rules.negativeCoefficient?] at ih ⊢
    simp only [Entries.mapKeys_cons, List.findSome?_cons, constant?_ofExpr]
    cases e with
    | constant value =>
      cases hn : decide (count = 1) && value.isNegative with
      | true => simp [Expr.constant?, Option.filter, hn, ofExpr]
      | false => simpa [Expr.constant?, Option.filter, hn] using ih
    | symbol | nary | unary | binary | conditional | call => exact ih

theorem follows_negatedTerm (h : e.WellFormed) :
    Follows (negatedTerm? (ofExpr e)) (.ok ((Symbolic.Rules.negatedTerm? e).map ofExpr)) := by
  cases e with
  | constant value =>
    simp only [ofExpr, negatedTerm?, Symbolic.Rules.negatedTerm?]
    split <;> exact .ok _
  | nary op terms =>
    cases op with
    | mul =>
      simp only [ofExpr_nary, negatedTerm?, Symbolic.Rules.negatedTerm?,
        negativeCoefficient?_ofExpr]
      cases Symbolic.Rules.negativeCoefficient? terms with
      | none => exact .ok _
      | some value =>
        have hremoved : Entries.removeOne (.constant value) (mapKeys ofExpr terms) =
            mapKeys ofExpr (Bag.removeOne (.constant value) terms) := by
          rw [← Entries.removeOne_eq h.canonical]
          exact Entries.removeOne_mapKeys compare_ofExpr_eq (.constant value) terms
        simp only [Option.map_some, hremoved]
        refine (follows_insert (.constant value.negate) _).bind_ok ?_
        exact .of_eq (congrArg some (ofExpr_nary .mul _).symm)
    | add | bitAnd | bitOr | bitXor | and | or =>
      rw [ofExpr_nary]
      exact .ok _
  | symbol | unary | binary | conditional | call => exact .ok _

theorem summands?_ofExpr (e : Expr) :
    summands? (ofExpr e) = some (mapKeys ofExpr (Symbolic.Rules.summands e)) := by
  cases e with
  | nary op terms =>
    rw [ofExpr_nary]
    cases op with
    | add => rfl
    | mul | bitAnd | bitOr | bitXor | and | or =>
      simp [summands?, isOp, op?, Symbolic.Rules.summands]
  | constant | symbol | unary | binary | conditional | call =>
    simp [ofExpr, summands?, isOp, op?, Symbolic.Rules.summands]

/-- A difference on trees. -/
def Difference.of (d : Symbolic.Rules.Difference) : Difference :=
  ⟨mapKeys ofExpr d.positive, mapKeys ofExpr d.negative, d.zeroOnLeft⟩

/-- The terms of a sum, each on its side. -/
theorem follows_sides (h : e.WellFormed) (zeroOnLeft : Bool) :
    Follows
      (do
        let (negative, positive) ←
          (mapKeys ofExpr (Symbolic.Rules.summands e)).foldlM (dealt negatedTerm?) ([], [])
        return if negative.isEmpty then none else some ⟨positive, negative, zeroOnLeft⟩)
      (.ok ((if (Symbolic.Rules.negativeTerms (Symbolic.Rules.summands e)).isEmpty then none
        else some ⟨Symbolic.Rules.positiveTerms (Symbolic.Rules.summands e),
          Symbolic.Rules.negativeTerms (Symbolic.Rules.summands e), zeroOnLeft⟩).map
            Difference.of)) := by
  obtain ⟨hcanonical, hterms⟩ := Symbolic.Rules.canonical_summands h
  refine (follows_dealt hcanonical fun term hm => follows_negatedTerm (hterms term hm)).bind_ok ?_
  rw [← Symbolic.Rules.negativeTerms, ← Symbolic.Rules.positiveTerms]
  cases Symbolic.Rules.negativeTerms (Symbolic.Rules.summands e) <;> exact .ok _

theorem follows_difference (h : e.WellFormed) :
    Follows (difference? (ofExpr e)) (.ok ((Symbolic.Rules.difference? e).map Difference.of)) := by
  cases e with
  | binary op lhs rhs =>
    have hl : lhs.WellFormed := h.of_mem_children List.mem_cons_self
    have hr : rhs.WellFormed := h.of_mem_children (List.mem_cons_of_mem _ List.mem_cons_self)
    simp only [difference?, Symbolic.Rules.difference?, operands?_ofExpr, Expr.operands?,
      Option.map_some, Prod.map, isInt_ofExpr]
    cases rhs.isInt 0 with
    | true =>
      simp only [if_true, Option.bind_some, summands?_ofExpr, Option.map_some]
      exact follows_sides hl false
    | false =>
      cases lhs.isInt 0 with
      | true =>
        simp only [if_true, Bool.false_eq_true, if_false, Option.bind_some, summands?_ofExpr,
          Option.map_some]
        exact follows_sides hr true
      | false => exact .ok _
  | constant | symbol | nary | unary | conditional | call =>
    simp only [difference?, Symbolic.Rules.difference?, operands?_ofExpr, Expr.operands?]
    exact .ok _

theorem subtractCompare_refines : subtractCompare.Refines Symbolic.Rules.subtractCompare where
  name_eq := rfl
  trigger_eq := rfl
  applies ctx e h := by
    refine (follows_difference h).bind_ok ?_
    simp only [Option.isSome_map]
    exact .ok _
  rewrite ctx e h := by
    refine (follows_difference h).bind_ok ?_
    rw [op?_ofExpr]
    cases e with
    | binary op lhs rhs =>
      simp only [Symbolic.Rules.subtractCompare, Expr.op?]
      cases Symbolic.Rules.difference? (.binary op lhs rhs) with
      | none => exact .ok _
      | some d =>
        obtain ⟨positive, negative, zeroOnLeft⟩ := d
        refine (follows_nary .add positive).bind_ok ?_
        refine (follows_nary .add negative).bind_ok ?_
        cases zeroOnLeft with
        | false => exact follows_operation (.binary op) [.nary .add positive, .nary .add negative]
        | true => exact follows_operation (.binary op) [.nary .add negative, .nary .add positive]
    | constant | symbol | nary | unary | conditional | call => exact .ok _

end Tree.Rules
end Symbolic
