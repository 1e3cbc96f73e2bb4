import Symbolic.Proofs.TreeComparison

/-! Repeated terms and common factors, on trees, and with them all default rules. -/
namespace Symbolic.Tree.Rules

open Entries (mapKeys)

variable {e factor term : Expr} {op inner : SemigroupOp} {terms : Bag}

/-! ## Repeated terms -/

/-- The entry that takes the place of one with several copies. -/
def repeated (op : SemigroupOp) (entry : Expr × Nat) : Expr × Nat :=
  if entry.2 = 1 || entry.1.isConstant then entry
  else (Symbolic.Rules.grouped op entry.1 entry.2, 1)

theorem follows_grouped (op : SemigroupOp) (bag : Bag) (entry : Expr × Nat) :
    Follows (grouped (.semigroup op) (mapKeys ofExpr bag) (ofExpr entry.1, entry.2))
      (.ok (mapKeys ofExpr (Bag.insertMany (repeated op entry).1 (repeated op entry).2 bag))) := by
  rw [grouped, repeated, isConstant_ofExpr]
  cases h : decide (entry.2 = 1) || entry.1.isConstant with
  | true =>
    simp only [if_true]
    exact follows_insertMany entry.1 entry.2 bag
  | false =>
    simp only [Bool.false_eq_true, if_false]
    have hgroup (inner : Operator) (e : Expr)
        (ho : Follows (operation inner [ofExpr entry.1, int entry.2]) (.ok (ofExpr e))) :
        Follows (do counted (Entries.insert? (← operation inner [ofExpr entry.1, int entry.2])
          (mapKeys ofExpr bag))) (.ok (mapKeys ofExpr (Bag.insertMany e 1 bag))) :=
      ho.bind_ok (follows_insert e bag)
    cases op with
    | mul => exact hgroup _ _ (follows_operation (.binary .pow) [entry.1, .int entry.2])
    | add | bitAnd | bitOr | bitXor | and | or =>
      exact hgroup _ _ (follows_operation (.semigroup .mul) [entry.1, .int entry.2])

theorem repetition_refines : repetition.Refines Symbolic.Rules.repetition where
  name_eq := rfl
  trigger_eq := rfl
  applies ctx e _ := by
    simp only [repetition, Symbolic.Rules.repetition, terms?_ofExpr, Option.any_map]
    refine .of_eq (congrArg (Option.any · e.bag?) (funext fun terms => ?_))
    simp only [Entries.any_mapKeys, isConstant_ofExpr]
    rfl
  rewrite ctx e _ := by
    cases e with
    | nary op terms =>
      simp only [ofExpr_nary, repetition, Symbolic.Rules.repetition]
      have hfold : Follows ((mapKeys ofExpr terms).foldlM (grouped (.semigroup op)) [])
          (.ok (mapKeys ofExpr (Bag.ofEntries (terms.map (repeated op))))) := by
        rw [Bag.ofEntries, Bag.merge, List.foldl_map]
        exact Follows.foldlM (fun bag entry _ => follows_grouped op bag entry) []
      exact hfold.bind_ok (follows_nary op _)
    | constant | symbol | unary | binary | conditional | call => exact .ok _

/-! ## Common factors -/

theorem innerOf?_semigroup (op : SemigroupOp) :
    innerOf? (.semigroup op) = (Symbolic.Rules.innerOf? op).map .semigroup := by
  cases op <;> rfl

theorem termsOf?_ofExpr (inner : SemigroupOp) (term : Expr) :
    termsOf? (.semigroup inner) (ofExpr term) =
      (term.bag?.filter fun _ => term.op? = some (.semigroup inner)).map (mapKeys ofExpr) := by
  cases term with
  | nary op terms =>
    rw [ofExpr_nary, termsOf?]
    by_cases h : op = inner <;> simp [h, Expr.bag?, Expr.op?, Option.filter]
  | constant | symbol | unary | binary | conditional | call => rfl

theorem factors_ofExpr (inner : SemigroupOp) (term : Expr) :
    factors (.semigroup inner) (ofExpr term) =
      (Symbolic.Rules.factors inner term).map ofExpr := by
  rw [factors, termsOf?_ofExpr, isConstant_ofExpr]
  cases term with
  | nary op terms =>
    by_cases h : op = inner
    · simp [h, Expr.bag?, Expr.op?, Option.filter, Symbolic.Rules.factors, Entries.keys_mapKeys,
        List.filter_map, Function.comp_def]
      rfl
    · simp [h, Expr.bag?, Expr.op?, Option.filter, Symbolic.Rules.factors, Expr.isConstant,
        Expr.constant?]
  | constant | symbol | unary | binary | conditional | call => rfl

theorem mostCommon?_mapKeys (counts : Bag) :
    mostCommon? (mapKeys ofExpr counts) =
      (Symbolic.Rules.mostCommon? counts).map fun entry => (ofExpr entry.1, entry.2) := by
  have hfold (best : Option (Expr × Nat)) :
      (mapKeys ofExpr counts).foldl
          (fun best entry =>
            if 2 ≤ entry.2 && best.all (fun b => b.2 < entry.2) then some entry else best)
          (best.map fun entry => (ofExpr entry.1, entry.2)) =
        (counts.foldl
          (fun best entry =>
            if 2 ≤ entry.2 && best.all (fun b => b.2 < entry.2) then some entry else best)
          best).map fun entry => (ofExpr entry.1, entry.2) := by
    induction counts generalizing best with
    | nil => rfl
    | cons entry rest ih =>
      rw [Entries.mapKeys_cons, List.foldl_cons, List.foldl_cons, ← ih]
      congr 1
      rw [Option.all_map]
      change (if 2 ≤ entry.2 && best.all (fun b => b.2 < entry.2) then _ else _) = _
      split <;> rfl
  exact hfold none

theorem follows_commonFactor (inner : SemigroupOp) (terms : Bag) :
    Follows (commonFactor? (.semigroup inner) (mapKeys ofExpr terms))
      (.ok ((Symbolic.Rules.commonFactor? inner terms).map ofExpr)) := by
  have hfactors : (Entries.keys (mapKeys ofExpr terms)).flatMap (factors (.semigroup inner)) =
      ((Bag.keys terms).flatMap (Symbolic.Rules.factors inner)).map ofExpr := by
    rw [Entries.keys_mapKeys, List.flatMap_map, List.map_flatMap]
    simp only [factors_ofExpr]
    rfl
  rw [commonFactor?, hfactors]
  refine (follows_ofList _).bind_ok (.of_eq ?_)
  rw [mostCommon?_mapKeys, Symbolic.Rules.commonFactor?, Symbolic.Rules.factorCounts]
  cases Symbolic.Rules.mostCommon? _ <;> rfl

theorem follows_cofactor (inner : SemigroupOp) (factor : Expr) (h : term.WellFormed) :
    Follows (cofactor? (.semigroup inner) (ofExpr factor) (ofExpr term))
      (.ok ((Symbolic.Rules.cofactor? inner factor term).map ofExpr)) := by
  by_cases hsame : term = factor
  · subst hsame
    rw [cofactor?, if_pos rfl, Symbolic.Rules.cofactor?.eq_def, if_pos rfl]
    exact (follows_nary inner []).bind_ok (.ok _)
  · rw [cofactor?, if_neg fun h => hsame (ofExpr_injective h), Symbolic.Rules.cofactor?.eq_def,
      if_neg hsame, termsOf?_ofExpr]
    cases term with
    | nary op terms =>
      by_cases hop : op = inner
      · subst hop
        have hcontains := Entries.contains_mapKeys compare_ofExpr_eq factor terms
        have hremoved := Entries.removeOne_mapKeys compare_ofExpr_eq factor terms
        rw [Entries.contains_eq h.canonical] at hcontains
        rw [Entries.removeOne_eq h.canonical] at hremoved
        simp only [Expr.bag?, Expr.op?, Option.filter, decide_true, if_true, Option.map_some,
          hcontains, hremoved, Bool.true_and]
        cases Bag.contains factor terms with
        | false => exact .ok _
        | true => exact (follows_nary op _).bind_ok (.ok _)
      · simp only [Expr.bag?, Expr.op?, Option.filter, Option.some.injEq,
          Operator.semigroup.injEq, hop,
          decide_false, Bool.false_eq_true, if_false, Option.map_none, Bool.false_and]
        exact .ok _
    | constant | symbol | unary | binary | conditional | call => exact .ok _

theorem follows_factored (factor : Expr) (h : (Expr.nary op terms).WellFormed) :
    Follows (factored (.semigroup op) (.semigroup inner) (ofExpr factor) (mapKeys ofExpr terms))
      (.ok (ofExpr (Symbolic.Rules.factored op inner factor terms))) := by
  have hcofactors (term : Expr) (hm : term ∈ Bag.keys terms) :
      Follows (cofactor? (.semigroup inner) (ofExpr factor) (ofExpr term))
        (.ok ((Symbolic.Rules.cofactor? inner factor term).map ofExpr)) :=
    follows_cofactor inner factor (h.of_mem_children hm)
  refine (follows_dealt h.canonical hcofactors).bind_ok ?_
  refine (follows_nary op _).bind_ok ?_
  refine (follows_ofList [factor, _]).bind_ok ?_
  refine (follows_nary inner _).bind_ok ?_
  exact (follows_insert _ _).bind_ok (follows_nary op _)

theorem distribute_refines : distribute.Refines Symbolic.Rules.distribute where
  name_eq := rfl
  trigger_eq := rfl
  applies ctx e _ := by
    cases e with
    | nary op terms =>
      simp only [ofExpr_nary, distribute, Symbolic.Rules.distribute, innerOf?_semigroup]
      cases Symbolic.Rules.innerOf? op with
      | none => exact .ok _
      | some inner =>
        refine (follows_commonFactor inner terms).bind_ok (.of_eq ?_)
        simp only [Option.isSome_map, Option.bind_some]
    | constant | symbol | unary | binary | conditional | call => exact .ok _
  rewrite ctx e h := by
    cases e with
    | nary op terms =>
      simp only [ofExpr_nary, distribute, Symbolic.Rules.distribute, innerOf?_semigroup]
      cases Symbolic.Rules.innerOf? op with
      | none => exact .of_eq (ofExpr_nary op terms).symm
      | some inner =>
        refine (follows_commonFactor inner terms).bind_ok ?_
        dsimp only
        cases Symbolic.Rules.commonFactor? inner terms with
        | none => exact .of_eq (ofExpr_nary op terms).symm
        | some factor => exact follows_factored factor h
    | constant | symbol | unary | binary | conditional | call => exact .ok _

end Symbolic.Tree.Rules
