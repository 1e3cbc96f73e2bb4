import Symbolic.Proofs.Entries
import Symbolic.Tree.Construction

/-! Expressions as trees: nothing is lost, the order is the same, and every view of a node is that
of its expression. -/
namespace Symbolic.Tree

open Entries (mapKeys)

variable {e e' : Expr} {t : Tree} {terms : Bag}

theorem ofTerms_eq (terms : List (Expr × Nat)) : ofTerms terms = mapKeys ofExpr terms := by
  induction terms with
  | nil => rfl
  | cons entry rest ih => rw [ofTerms, ih, Entries.mapKeys_cons]

theorem ofArgs_eq (args : List Expr) : ofArgs args = args.map ofExpr := by
  induction args with
  | nil => rfl
  | cons e rest ih => rw [ofArgs, ih, List.map_cons]

/-! ## The order -/

theorem compare_add_left (k a b : Nat) : compare (k + a) (k + b) = compare a b := by
  simp only [Nat.compare_eq_ite_lt, Nat.add_lt_add_iff_left]

theorem compare_semigroup (a b : SemigroupOp) :
    compare (Operator.semigroup a) (Operator.semigroup b) = compare a b := rfl

theorem compare_unary (a b : UnaryOp) :
    compare (Operator.unary a) (Operator.unary b) = compare a b := compare_add_left 7 _ _

theorem compare_binary (a b : BinaryOp) :
    compare (Operator.binary a) (Operator.binary b) = compare a b := compare_add_left 9 _ _

theorem compare_index (op op' : Operator) : compare op.index op'.index = compare op op' := rfl

/-- The first and the next place after the last of a class in the order of operators. -/
def classRange : OperatorClass → Nat × Nat
  | .semigroup => (0, 7)
  | .unary => (7, 9)
  | .binary => (9, 20)
  | .ternary => (20, 21)
  | .variadic => (21, 22)

theorem index_mem_classRange (op : Operator) :
    (classRange op.operatorClass).1 ≤ op.index ∧ op.index < (classRange op.operatorClass).2 := by
  cases op with
  | semigroup op => cases op <;> decide
  | unary op => cases op <;> decide
  | binary op => cases op <;> decide
  | conditional => decide
  | call => decide

/-- Operators of two classes compare as the classes do. -/
theorem compare_of_classes {op op' : Operator}
    (h : (classRange op.operatorClass).2 ≤ (classRange op'.operatorClass).1) :
    compare op op' = .lt ∧ compare op' op = .gt := by
  have hop := index_mem_classRange op
  have hop' := index_mem_classRange op'
  exact ⟨Nat.compare_eq_lt.mpr (by omega), Nat.compare_eq_gt.mpr (by omega)⟩

mutual

theorem compare_ofExpr (a b : Expr) : (ofExpr a).compare (ofExpr b) = a.compare b := by
  cases a <;> cases b <;>
    simp only [ofExpr, Tree.compare, Expr.compare, form, Expr.form, compareList, opIndex, op?,
      storageForm, Option.map_some, Option.getD_some, compare_ofExpr _ _,
      compareTerms_ofTerms _ _, compareList_ofArgs _ _, compare_semigroup, compare_unary,
      compare_binary, compare_index, Ordering.then_eq]
  -- What is left are two forms: of two operations the classes decide.
  all_goals first
    | rfl
    | rw [(compare_of_classes (Nat.le_of_ble_eq_true rfl)).1]; rfl
    | rw [(compare_of_classes (Nat.le_of_ble_eq_true rfl)).2]; rfl
termination_by structural a

theorem compareTerms_ofTerms (a b : List (Expr × Nat)) :
    compareTerms (ofTerms a) (ofTerms b) = Expr.compareTerms a b := by
  match a, b with
  | [], [] => rfl
  | [], _ :: _ => rfl
  | _ :: _, [] => rfl
  | (e, n) :: rest, (e', n') :: rest' =>
    simp only [ofTerms, compareTerms, Expr.compareTerms, compare_ofExpr e e',
      compareTerms_ofTerms rest rest']
termination_by structural a

theorem compareList_ofArgs (a b : List Expr) :
    compareList (ofArgs a) (ofArgs b) = Expr.compareArgs a b := by
  match a, b with
  | [], [] => rfl
  | [], _ :: _ => rfl
  | _ :: _, [] => rfl
  | e :: rest, e' :: rest' =>
    simp only [ofArgs, compareList, Expr.compareArgs, compare_ofExpr e e',
      compareList_ofArgs rest rest']
termination_by structural a

end

theorem compare_ofExpr_eq (a b : Expr) : compare (ofExpr a) (ofExpr b) = compare a b :=
  compare_ofExpr a b

theorem ofExpr_injective : Function.Injective ofExpr := by
  intro a b h
  rw [← Expr.compare_eq_iff, ← compare_ofExpr]
  exact (compare_eq_iff _ _).mpr h

@[simp] theorem ofExpr_inj : ofExpr e = ofExpr e' ↔ e = e' := ofExpr_injective.eq_iff

/-! ## The views of a node -/

@[simp] theorem constant?_ofExpr (e : Expr) : (ofExpr e).constant? = e.constant? := by
  cases e <;> rfl

@[simp] theorem isConstant_ofExpr (e : Expr) : (ofExpr e).isConstant = e.isConstant := by
  rw [isConstant, constant?_ofExpr, Expr.isConstant]

@[simp] theorem isInt_ofExpr (e : Expr) (v : Int) : (ofExpr e).isInt v = e.isInt v := by
  rw [isInt, constant?_ofExpr, Expr.isInt]

@[simp] theorem op?_ofExpr (e : Expr) : (ofExpr e).op? = e.op? := by
  cases e <;> rfl

@[simp] theorem isAtomic_ofExpr (e : Expr) : (ofExpr e).isAtomic = e.isAtomic := by
  rw [isAtomic, op?_ofExpr, Expr.isAtomic]

@[simp] theorem isOp_ofExpr (e : Expr) (op : Operator) :
    (ofExpr e).isOp op = decide (e.op? = some op) := by
  rw [isOp, op?_ofExpr]

@[simp] theorem terms?_ofExpr (e : Expr) : (ofExpr e).terms? = e.bag?.map (mapKeys ofExpr) := by
  cases e <;> simp [ofExpr, terms?, Expr.bag?, ofTerms_eq]

@[simp] theorem places_ofExpr (e : Expr) : (ofExpr e).places = e.ordered.map ofExpr := by
  cases e <;> simp [ofExpr, places, Expr.ordered, ofArgs_eq]

theorem children_ofExpr (e : Expr) : (ofExpr e).children = e.children.map ofExpr := by
  cases e <;>
    simp [ofExpr, children, places, Expr.children, Expr.ordered, ofArgs_eq, ofTerms_eq, mapKeys,
      Entries.keys]

@[simp] theorem operands?_ofExpr (e : Expr) :
    (ofExpr e).operands? = e.operands?.map (Prod.map ofExpr ofExpr) := by
  cases e with
  | call callee args =>
    cases args with
    | nil => rfl
    | cons arg rest => cases rest <;> rfl
  | constant | symbol | nary | unary | binary | conditional => rfl

mutual

theorem depth_ofExpr (e : Expr) : (ofExpr e).depth = e.depth := by
  cases e <;>
    simp [ofExpr, depth, Expr.depth, depthList, depth_ofExpr _, depthTerms_ofTerms _,
      depthList_ofArgs _]
termination_by structural e

theorem depthTerms_ofTerms (terms : List (Expr × Nat)) :
    depthTerms (ofTerms terms) = Expr.depthTerms terms := by
  match terms with
  | [] => rfl
  | (e, n) :: rest =>
    simp only [ofTerms, depthTerms, Expr.depthTerms, depth_ofExpr e, depthTerms_ofTerms rest]
termination_by structural terms

theorem depthList_ofArgs (args : List Expr) : depthList (ofArgs args) = Expr.depthArgs args := by
  match args with
  | [] => rfl
  | e :: rest =>
    simp only [ofArgs, depthList, Expr.depthArgs, depth_ofExpr e, depthList_ofArgs rest]
termination_by structural args

end

/-! ## The way back -/

mutual

/-- Nothing is lost: the expression can be read off its tree. -/
theorem expr?_ofExpr (e : Expr) : (ofExpr e).expr? = some e := by
  cases e <;>
    simp [ofExpr, expr?, exprs?, exprOfList?, expr?_ofExpr _, exprTerms?_ofTerms _,
      exprs?_ofArgs _]
termination_by structural e

theorem exprTerms?_ofTerms (terms : List (Expr × Nat)) :
    exprTerms? (ofTerms terms) = some terms := by
  match terms with
  | [] => rfl
  | (e, n) :: rest =>
    simp [ofTerms, exprTerms?, expr?_ofExpr e, exprTerms?_ofTerms rest]
termination_by structural terms

theorem exprs?_ofArgs (args : List Expr) : exprs? (ofArgs args) = some args := by
  match args with
  | [] => rfl
  | e :: rest => simp [ofArgs, exprs?, expr?_ofExpr e, exprs?_ofArgs rest]
termination_by structural args

end

end Symbolic.Tree
