import Symbolic.Proofs.TreeFactoring
import Symbolic.Session

/-! The rules outside the default set, on trees, and with them whatever a session registers. -/
namespace Symbolic.Tree.Rules

variable {e : Expr} {rule : Symbolic.Rule} {registry : Registry}

theorem doubleComplement_refines : doubleComplement.Refines Symbolic.Rules.doubleComplement where
  name_eq := rfl
  trigger_eq := rfl
  applies ctx e _ := by
    simp only [doubleComplement, Symbolic.Rules.doubleComplement, places_ofExpr, List.head?_map]
    cases e.ordered.head? with
    | none => exact .ok _
    | some inner => exact .of_eq (by simp)
  rewrite ctx e _ := by
    simp only [doubleComplement, Symbolic.Rules.doubleComplement, places_ofExpr, List.head?_map]
    cases e.ordered.head? with
    | none => exact .ok _
    | some inner =>
      simp only [Option.map_some, Option.bind_some, places_ofExpr, List.head?_map]
      cases inner.ordered.head? <;> exact .ok _

theorem negateLess_refines : negateLess.Refines Symbolic.Rules.negateLess where
  name_eq := rfl
  trigger_eq := rfl
  applies ctx e _ := .ok _
  rewrite ctx e _ := by
    simp only [negateLess, operands?_ofExpr]
    cases e <;> exact .ok _

theorem swap_refines : swap.Refines Symbolic.Rules.swap where
  name_eq := rfl
  trigger_eq := rfl
  applies ctx e _ := .ok _
  rewrite ctx e _ := by
    simp only [swap, operands?_ofExpr]
    cases e <;> exact .ok _

theorem grow_refines : grow.Refines Symbolic.Rules.grow where
  name_eq := rfl
  trigger_eq := rfl
  applies ctx e _ := by
    simp only [grow, Symbolic.Rules.grow, places_ofExpr, List.head?_map]
    cases e.ordered.head? with
    | none => exact .ok _
    | some inner => exact .of_eq (isAtomic_ofExpr inner)
  rewrite ctx e _ := .ok _

theorem dropZeroShift_refines : dropZeroShift.Refines Symbolic.Rules.dropZeroShift where
  name_eq := rfl
  trigger_eq := rfl
  applies ctx e _ := by
    simp only [dropZeroShift, Symbolic.Rules.dropZeroShift, operands?_ofExpr]
    cases e.operands? with
    | none => exact .ok _
    | some operands => exact .of_eq (isInt_ofExpr operands.2 0)
  rewrite ctx e _ := by
    simp only [dropZeroShift, operands?_ofExpr]
    cases e <;> exact .ok _

theorem noop_refines : noop.Refines Symbolic.Rules.noop where
  name_eq := rfl
  trigger_eq := rfl
  applies _ _ _ := .ok _
  rewrite _ _ _ := .ok _

theorem sumComplement_refines : sumComplement.Refines Symbolic.Rules.sumComplement where
  name_eq := rfl
  trigger_eq := rfl
  applies ctx e _ := .ok _
  rewrite ctx e _ := by
    simp only [sumComplement, Symbolic.Rules.sumComplement, places_ofExpr, List.head?_map]
    cases e.ordered.head? with
    | none => exact .ok _
    | some arg => exact (follows_neg arg).bind_ok (follows_sub arg.neg (.int 1))

theorem rootCall_refines : rootCall.Refines Symbolic.Rules.rootCall where
  name_eq := rfl
  trigger_eq := rfl
  applies ctx e _ := by
    simp only [rootCall, Symbolic.Rules.rootCall, places_ofExpr, List.head?_map]
    cases e.ordered.head? with
    | none => exact .ok _
    | some first =>
      have hroot : ofExpr first = .symbol "root" ↔ first = .symbol "root" :=
        @ofExpr_inj first (.symbol "root")
      exact .of_eq (by simp [hroot])
  rewrite ctx e _ := .ok _

theorem wrapRotate_refines : wrapRotate.Refines Symbolic.Rules.wrapRotate where
  name_eq := rfl
  trigger_eq := rfl
  applies ctx e _ := by
    simp only [wrapRotate, Symbolic.Rules.wrapRotate, places_ofExpr, List.getElem?_map]
    cases e.ordered[1]? with
    | none => exact .ok _
    | some amount => exact .of_eq (by simp)
  rewrite ctx e _ := by
    simp only [wrapRotate, operands?_ofExpr]
    cases e <;> exact .ok _

theorem badArity_refines : badArity.Refines Symbolic.Rules.badArity where
  name_eq := rfl
  trigger_eq := rfl
  applies ctx e _ := .ok _
  rewrite ctx e _ := by
    simp only [badArity, places_ofExpr]
    exact follows_operation .conditional e.ordered

/-- A rule on trees with the name of a rule on expressions does what that one does. -/
theorem exists_named_of_mem (hm : rule ∈ Symbolic.Rules.all ++ Symbolic.Rules.samples) :
    ∃ rule', named? rule.name = some rule' ∧ rule'.Refines rule := by
  simp only [Symbolic.Rules.all, Symbolic.Rules.semigroupFamily, Symbolic.Rules.foldingFamily,
    Symbolic.Rules.comparisonFamily, Symbolic.Rules.factoringFamily, Symbolic.Rules.samples,
    List.cons_append, List.nil_append, List.mem_cons, List.not_mem_nil, or_false] at hm
  rcases hm with rfl | rfl | rfl | rfl | rfl | rfl | rfl | rfl | rfl | rfl | rfl | rfl | rfl | rfl |
    rfl | hm
  · exact ⟨_, rfl, flatten_refines⟩
  · exact ⟨_, rfl, idempotent_refines⟩
  · exact ⟨_, rfl, involution_refines⟩
  · exact ⟨_, rfl, foldUnary_refines⟩
  · exact ⟨_, rfl, foldBinary_refines⟩
  · exact ⟨_, rfl, shortCircuit_refines⟩
  · exact ⟨_, rfl, foldNary_refines⟩
  · exact ⟨_, rfl, naryBase_refines⟩
  · exact ⟨_, rfl, constantCondition_refines⟩
  · exact ⟨_, rfl, selfCompare_refines⟩
  · exact ⟨_, rfl, negatedCompare_refines⟩
  · exact ⟨_, rfl, subtractCompare_refines⟩
  · exact ⟨_, rfl, compareZero_refines⟩
  · exact ⟨_, rfl, repetition_refines⟩
  · exact ⟨_, rfl, distribute_refines⟩
  rcases hm with rfl | rfl | rfl | rfl | rfl | rfl | rfl | rfl | rfl | rfl
  · exact ⟨_, rfl, doubleComplement_refines⟩
  · exact ⟨_, rfl, negateLess_refines⟩
  · exact ⟨_, rfl, swap_refines⟩
  · exact ⟨_, rfl, grow_refines⟩
  · exact ⟨_, rfl, dropZeroShift_refines⟩
  · exact ⟨_, rfl, noop_refines⟩
  · exact ⟨_, rfl, sumComplement_refines⟩
  · exact ⟨_, rfl, rootCall_refines⟩
  · exact ⟨_, rfl, wrapRotate_refines⟩
  · exact ⟨_, rfl, badArity_refines⟩

end Symbolic.Tree.Rules
