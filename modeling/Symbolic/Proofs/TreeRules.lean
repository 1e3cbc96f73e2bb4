import Symbolic.Proofs.Rewrites
import Symbolic.Proofs.TreeBuilding
import Symbolic.Tree.Rules

/-! The rules on trees do on expressions what the rules on expressions do, unless a multiplicity is
beyond a machine word. What a rule builds by a way that may fail fits its operator. -/
namespace Symbolic.Tree

open Entries (mapKeys)

/-- A rule on trees that does on well-formed expressions what a rule on expressions does. -/
structure Rule.Refines (rule : Rule) (rule' : Symbolic.Rule) : Prop where
  name_eq : rule.name = rule'.name
  trigger_eq : rule.trigger = rule'.trigger
  applies (ctx : Context) {e : Expr} (h : e.WellFormed) :
    Follows (rule.applies ctx (ofExpr e)) (.ok (rule'.applies ctx e))
  rewrite (ctx : Context) {e : Expr} (h : e.WellFormed) :
    Follows (rule.rewrite ctx (ofExpr e)) (onTrees ofExpr (rule'.rewrite ctx e))

namespace Rules

variable {e : Expr} {op : SemigroupOp} {terms : Bag} {ctx : Context}

theorem follows_nary (op : SemigroupOp) (bag : Bag) :
    Follows (ofMultiset (.semigroup op) (mapKeys ofExpr bag)) (.ok (ofExpr (.nary op bag))) :=
  follows_ofMultiset (.semigroup op) bag

/-! ## Structure -/

theorem nestedTerms_ofExpr (op : SemigroupOp) (terms : List (Expr × Nat)) :
    nestedTerms (mapKeys ofExpr (terms.filter fun entry => Symbolic.Rules.isNary op entry.1)) =
      mapKeys ofExpr (Symbolic.Rules.nestedTerms op terms) := by
  induction terms with
  | nil => rfl
  | cons entry rest ih =>
    obtain ⟨e, count⟩ := entry
    cases he : Symbolic.Rules.isNary op e with
    | false =>
      rw [Symbolic.Rules.nestedTerms_cons_other he, List.filter_cons_of_neg (by simp [he]), ih]
    | true =>
      obtain ⟨terms, rfl⟩ := Symbolic.Rules.isNary_iff.mp he
      rw [Symbolic.Rules.nestedTerms_cons_nary, List.filter_cons_of_pos (by simp [he]),
        Entries.mapKeys_cons, nestedTerms, List.flatMap_cons]
      have hrest := ih
      rw [nestedTerms] at hrest
      rw [hrest]
      simp [terms?, mapKeys]

theorem flatten_refines : flatten.Refines Symbolic.Rules.flatten where
  name_eq := rfl
  trigger_eq := rfl
  applies ctx e _ := by
    cases e with
    | nary op terms =>
      simp only [ofExpr_nary, flatten, Symbolic.Rules.flatten, Entries.any_mapKeys, isOp_ofExpr]
      exact .ok _
    | constant | symbol | unary | binary | conditional | call => exact .ok _
  rewrite ctx e h := by
    cases e with
    | nary op terms =>
      simp only [ofExpr_nary, flatten, Symbolic.Rules.flatten]
      refine (follows_partition h.canonical _).bind_ok ?_
      have hnested := nestedTerms_ofExpr op terms
      simp only [Symbolic.Rules.isNary] at hnested
      simp only [Bag.split_eq_filters, Prod.map, isOp_ofExpr, hnested]
      exact (follows_merge _ _).bind_ok (follows_nary op _)
    | constant | symbol | unary | binary | conditional | call => exact .ok _

/-- Nothing more than the multiplicities counts. -/
theorem hasRepeated_ofExpr (e : Expr) : hasRepeated (ofExpr e) = Symbolic.Rules.hasRepeated e := by
  rw [hasRepeated, terms?_ofExpr, Option.any_map]
  exact congrArg (Option.any · e.bag?) (funext fun terms => Entries.any_mapKeys _ _ _)

theorem follows_collected (e : Expr) (keys : List Expr) :
    Follows (collected (ofExpr e) (keys.map ofExpr))
      (onTrees ofExpr (Symbolic.Rules.rebuild e (Bag.ofList keys))) := by
  rw [collected, Symbolic.Rules.rebuild, op?_ofExpr]
  cases e.op? with
  | none => exact .ok _
  | some op => exact (follows_ofList keys).bind_ok (follows_ofMultiset op _)

theorem getD_terms?_ofExpr (e : Expr) :
    (ofExpr e).terms?.getD [] = mapKeys ofExpr (e.bag?.getD []) := by
  rw [terms?_ofExpr]
  cases e.bag? <;> rfl

theorem idempotent_refines : idempotent.Refines Symbolic.Rules.idempotent where
  name_eq := rfl
  trigger_eq := rfl
  applies ctx e _ := .of_eq (hasRepeated_ofExpr e)
  rewrite ctx e _ := by
    simp only [idempotent, Symbolic.Rules.idempotent, getD_terms?_ofExpr, Entries.keys_mapKeys]
    exact follows_collected e _

theorem involution_refines : involution.Refines Symbolic.Rules.involution where
  name_eq := rfl
  trigger_eq := rfl
  applies ctx e _ := .of_eq (hasRepeated_ofExpr e)
  rewrite ctx e _ := by
    simp only [involution, Symbolic.Rules.involution, getD_terms?_ofExpr, Entries.mapKeys_filter,
      Entries.keys_mapKeys]
    exact follows_collected e _

/-! ## Constant folding -/

theorem follows_folded (op : Operator) (result : Except NumericError Number) :
    Follows (folded op result) (onTrees ofExpr (Symbolic.Rules.folded op result)) := by
  cases result with
  | error cause => exact .failed _
  | ok value => exact .ok _

theorem firstConstant?_ofExpr (e : Expr) :
    firstConstant? (ofExpr e) = Symbolic.Rules.firstConstant? e := by
  rw [firstConstant?, Symbolic.Rules.firstConstant?, places_ofExpr, List.head?_map]
  cases e.ordered.head? with
  | none => rfl
  | some first => exact constant?_ofExpr first

theorem foldUnary_refines : foldUnary.Refines Symbolic.Rules.foldUnary where
  name_eq := rfl
  trigger_eq := rfl
  applies ctx e _ := .of_eq (congrArg Option.isSome (firstConstant?_ofExpr e))
  rewrite ctx e _ := by
    simp only [foldUnary, Symbolic.Rules.foldUnary, op?_ofExpr, firstConstant?_ofExpr]
    cases e.op? with
    | none => exact .ok _
    | some op =>
      cases Symbolic.Rules.firstConstant? e with
      | none => exact .ok _
      | some value => exact follows_folded op _

theorem foldBinary_refines : foldBinary.Refines Symbolic.Rules.foldBinary where
  name_eq := rfl
  trigger_eq := rfl
  applies ctx e _ := by
    cases e with
    | binary op lhs rhs =>
      simp only [foldBinary, operands?_ofExpr, Expr.operands?, Option.map_some, Option.any_some,
        Prod.map, isConstant_ofExpr]
      exact .ok _
    | constant | symbol | nary | unary | conditional | call =>
      simp only [foldBinary, operands?_ofExpr, Expr.operands?]
      exact .ok _
  rewrite ctx e _ := by
    cases e with
    | binary op lhs rhs =>
      simp only [foldBinary, operands?_ofExpr, op?_ofExpr, Expr.operands?, Expr.op?,
        Option.map_some, Prod.map, constant?_ofExpr]
      cases lhs <;> cases rhs <;> first | exact .ok _ | exact follows_folded (.binary op) _
    | constant | symbol | nary | unary | conditional | call =>
      simp only [foldBinary, operands?_ofExpr, op?_ofExpr, Expr.operands?, Expr.op?]
      exact .ok _

theorem absorbed?_semigroup (op : SemigroupOp) (value : Number) :
    absorbed? (.semigroup op) value = Symbolic.Rules.absorbed? op value := by
  cases op <;> simp [absorbed?, Symbolic.Rules.absorbed?, Number.isTruthy, Number.ofBool]

theorem absorbing?_ofExpr (e : Expr) : absorbing? (ofExpr e) = Symbolic.Rules.absorbing? e := by
  cases e with
  | nary op terms =>
    rw [ofExpr_nary, absorbing?, Symbolic.Rules.absorbing?, Entries.keys_mapKeys]
    induction terms with
    | nil => rfl
    | cons entry rest ih =>
      simp only [Entries.keys, List.map_cons, List.filterMap_cons, constant?_ofExpr,
        List.findSome?_cons] at ih ⊢
      cases entry.1.constant? with
      | none => exact ih
      | some value =>
        simp only [List.findSome?_cons, absorbed?_semigroup, Option.bind_some]
        cases Symbolic.Rules.absorbed? op value with
        | none => exact ih
        | some _ => rfl
  | constant | symbol | unary | binary | conditional | call => rfl

theorem shortCircuit_refines : shortCircuit.Refines Symbolic.Rules.shortCircuit where
  name_eq := rfl
  trigger_eq := rfl
  applies ctx e _ := .of_eq (congrArg Option.isSome (absorbing?_ofExpr e))
  rewrite ctx e _ := by
    simp only [shortCircuit, Symbolic.Rules.shortCircuit, absorbing?_ofExpr]
    cases Symbolic.Rules.absorbing? e <;> exact .ok _

theorem accumulateAll_ofExpr (op : SemigroupOp) (acc : Number) (terms : List (Expr × Nat)) :
    accumulateAll (.semigroup op) acc (mapKeys ofExpr (Symbolic.Rules.constantEntries terms)) =
      (Symbolic.Rules.accumulateAll op acc terms).mapError (undefined (.semigroup op)) := by
  induction terms generalizing acc with
  | nil => rfl
  | cons entry rest ih =>
    obtain ⟨e, count⟩ := entry
    cases e with
    | constant value =>
      have hfirst : Symbolic.Rules.constantEntries ((.constant value, count) :: rest) =
          (.constant value, count) :: Symbolic.Rules.constantEntries rest := rfl
      rw [hfirst, Entries.mapKeys_cons, accumulateAll, List.foldlM_cons,
        Symbolic.Rules.accumulateAll]
      cases h : op.accumulate acc value count with
      | error cause =>
        simp only [ofExpr, constant?, Operator.accumulate, h]
        rfl
      | ok sum =>
        simp only [ofExpr, constant?, Operator.accumulate, h]
        exact ih sum
    | symbol | nary | unary | binary | conditional | call => exact ih acc

theorem constant?_eq_some_iff {value : Number} :
    e.constant? = some value ↔ e = .constant value := by
  cases e <;> simp [Expr.constant?]

theorem foldNary_refines : foldNary.Refines Symbolic.Rules.foldNary where
  name_eq := rfl
  trigger_eq := rfl
  applies ctx e _ := by
    cases e with
    | nary op terms =>
      simp only [ofExpr_nary, foldNary, Symbolic.Rules.foldNary, Operator.identity?,
        Entries.mapKeys_filter, isConstant_ofExpr]
      have hconstants : terms.filter (fun entry => entry.1.isConstant) =
          Symbolic.Rules.constantEntries terms := rfl
      simp only [hconstants]
      match Symbolic.Rules.constantEntries terms with
      | [] => exact .ok _
      | [(only, count)] => exact .of_eq (by simp only [constant?_ofExpr, constant?_eq_some_iff])
      | _ :: _ :: _ => exact .ok _
    | constant | symbol | unary | binary | conditional | call => exact .ok _
  rewrite ctx e h := by
    cases e with
    | nary op terms =>
      simp only [ofExpr_nary, foldNary, Symbolic.Rules.foldNary, Operator.identity?]
      refine (follows_partition h.canonical _).bind_ok ?_
      have hfold := accumulateAll_ofExpr op op.identity terms
      simp only [Symbolic.Rules.constantEntries] at hfold
      simp only [Bag.split_eq_filters, Prod.map, isConstant_ofExpr, hfold]
      cases Symbolic.Rules.accumulateAll op op.identity terms with
      | error cause => exact .failed _
      | ok value =>
        refine (Follows.ok value).bind_ok ?_
        by_cases hvalue : value = op.identity
        · simp only [hvalue, if_true]
          exact follows_nary op _
        · simp only [hvalue, if_false]
          exact (follows_insert (.constant value) _).bind_ok (follows_nary op _)
    | constant | symbol | unary | binary | conditional | call => exact .ok _

theorem naryBase_refines : naryBase.Refines Symbolic.Rules.naryBase where
  name_eq := rfl
  trigger_eq := rfl
  applies ctx e _ := by
    cases e with
    | nary op terms =>
      match terms with
      | [] | [(_, 0)] | [(_, 1)] | [(_, _ + 2)] => exact .ok _
      | (_, 0) :: _ :: _ | (_, 1) :: _ :: _ | (_, _ + 2) :: _ :: _ => exact .ok _
    | constant | symbol | unary | binary | conditional | call => exact .ok _
  rewrite ctx e h := by
    cases e with
    | nary op terms =>
      match terms with
      | [] | [(_, 0)] | [(_, 1)] | [(_, _ + 2)] => exact .ok _
      | (_, 0) :: _ :: _ | (_, 1) :: _ :: _ | (_, _ + 2) :: _ :: _ => exact .ok _
    | constant | symbol | unary | binary | conditional | call => exact .ok _

theorem constantCondition_refines : constantCondition.Refines Symbolic.Rules.constantCondition where
  name_eq := rfl
  trigger_eq := rfl
  applies ctx e _ := .of_eq (congrArg Option.isSome (firstConstant?_ofExpr e))
  rewrite ctx e _ := by
    simp only [constantCondition, Symbolic.Rules.constantCondition, firstConstant?_ofExpr,
      places_ofExpr, List.getElem?_map, Option.getD_map]
    cases Symbolic.Rules.firstConstant? e <;> exact .ok _

end Rules
end Symbolic.Tree
