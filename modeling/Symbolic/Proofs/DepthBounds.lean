import Symbolic.Proofs.Idempotent
import Symbolic.Proofs.MemoTransparent
import Symbolic.Proofs.Termination

/-! How deep a simplified expression can be, and what becomes of it when it is simplified again. The
bound on depth is one on the operations that a run enters, and a run enters nothing below a normal
form that it looks up. -/
namespace Symbolic

namespace Expr

variable {e : Expr} {bound : Nat}

theorem depthArgs_le {args : List Expr} (h : ∀ c ∈ args, c.depth ≤ bound) :
    depthArgs args ≤ bound := by
  induction args with
  | nil => exact Nat.zero_le _
  | cons e rest ih =>
    obtain ⟨he, hrest⟩ := List.forall_mem_cons.mp h
    exact Nat.max_le.mpr ⟨he, ih hrest⟩

theorem depth_le_succ (h : ∀ c ∈ e.children, c.depth ≤ bound) : e.depth ≤ bound + 1 := by
  rw [depth_eq]
  exact Nat.succ_le_succ (depthArgs_le h)

theorem depth_le_weight (hw : e.WellFormed) : e.depth ≤ e.weight := by
  induction e using Expr.induction with
  | h e ih =>
    have hsum := sum_weight_children_lt hw
    have hchild : ∀ c ∈ e.children, c.depth ≤ (e.children.map weight).sum := by
      intro c hc
      exact (ih c hc (hw.of_mem_children hc)).trans
        (List.single_le_sum (fun x _ => Nat.zero_le x) _ (List.mem_map_of_mem hc))
    exact (depth_le_succ hchild).trans hsum

end Expr

namespace Engine

variable {engine : Engine} {levels steps : Nat} {parent : Option Operator} {e n r : Expr}
  {config : Config}

/-- Below the innermost operation that is entered there may still be atoms. -/
theorem Normalizes.depth_le (h : engine.Normalizes levels parent e n steps) :
    n.depth ≤ levels + 1 := by
  induction h with
  | atom ha =>
    refine Expr.depth_le_succ fun c hc => ?_
    rw [Expr.children_of_isAtomic ha] at hc
    exact nomatch hc
  | settled image cost ha hc hr ih =>
    refine Expr.depth_le_succ fun c hm => ?_
    obtain ⟨original, ho, rfl⟩ := Expr.mem_children_rebuilt hm
    exact ih original ho
  | rewritten image cost step ha hc hr hn ihc ihn => exact ihn

theorem Normalizes.weight_le (h : engine.Normalizes levels parent e n steps)
    (hd : engine.registry = .default) (hw : e.WellFormed) : n.weight ≤ e.weight :=
  Nat.le_of_add_right_le ((byWeight engine hd).normalizes h hw).2

/-- Without lookups a run exceeds the bound by no more than one. -/
theorem depth_le_of_plain {o : Outcome} (hp : engine.recalls = false)
    (h : (engine.run e).1 = .ok o) :
    o.expr.depth ≤ engine.config.maxDepth + 1 := by
  obtain ⟨reach, steps, hran⟩ := ran_of_run_eq_ok (Prod.ext h rfl)
  obtain ⟨rfl, _⟩ := hran.plain hp
  exact hran.normalizes.depth_le

/-- A result is no deeper than the expression weighs, but may be deeper than the bound, by one where
nothing is looked up. Then, and only then, it is refused when it is simplified again. -/
theorem depth_of_simplify (hw : e.WellFormed) (h : simplify e config = .ok r) :
    r.depth ≤ e.weight ∧
    (∀ o, (run ⟨.default, config, false⟩ e).1 = .ok o →
      o.expr = r ∧ r.depth ≤ config.maxDepth + 1) ∧
    simplify r config =
      if r.depth ≤ config.maxDepth then .ok r else .error (.tooDeep config.maxDepth) := by
  obtain ⟨levels, steps, hn⟩ := normalizes_of_simplify h
  refine ⟨?_, ?_, ?_⟩
  · exact (Expr.depth_le_weight (hn.wellFormed rfl hw)).trans (hn.weight_le rfl hw)
  · intro o hplain
    obtain ⟨o', hfound, hsame, _⟩ := exists_simplifyWith_of_plain hplain
    have hr : r = o.expr := by
      rw [simplify_eq_ok_iff.mpr ⟨o', hfound, hsame⟩, Except.ok.injEq] at h
      exact h.symm
    exact ⟨hr.symm, hr ▸ depth_le_of_plain rfl hplain⟩
  · split
    · next hd => exact simplify_eq_ok_iff.mpr ⟨_, run_of_normalForm hn.normalForm hd, rfl⟩
    · next hd =>
      rw [simplify, simplifyWith, run_of_maxDepth_lt (Nat.lt_of_not_le hd), Except.map, tooDeep]

/-- With two levels `x == 0` becomes `!x`, two levels that are left as they are. -/
theorem depth_of_simplify_of_equal_zero :
    let e := Expr.binary .eq (.symbol "x") (.int 0)
    let r := Expr.unary .not (.symbol "x")
    simplify e { maxDepth := 2 } = .ok r ∧ r.depth ≤ e.weight ∧
      simplify r { maxDepth := 2 } = .ok r := by
  have hrun : simplify (.binary .eq (.symbol "x") (.int 0)) { maxDepth := 2 } =
      .ok (.unary .not (.symbol "x")) := rfl
  obtain ⟨hdepth, _, hagain⟩ := depth_of_simplify (by decide) hrun
  exact ⟨hrun, hdepth, hagain⟩

/-- Looked up inside `g(u)`, the normal form of `u` may lie two levels below the bound. -/
example :
    let u := Expr.binary .ne (.binary .ne (.symbol "x") (.int 0)) (.int 0)
    (simplify (.call (.symbol "f") [u, .call (.symbol "g") [u]]) { maxDepth := 5 }).toOption.map
      Expr.depth = some 7 := rfl

/-- With two levels `x != 0` becomes `!!x`, three levels that are refused. -/
theorem refused_when_simplified_again :
    let e := Expr.binary .ne (.symbol "x") (.int 0)
    let r := Expr.unary .not (.unary .not (.symbol "x"))
    simplify e { maxDepth := 2 } = .ok r ∧ ¬ r.depth ≤ 2 ∧
      simplify r { maxDepth := 2 } = .error (.tooDeep 2) := by
  exact ⟨rfl, by decide, rfl⟩

end Engine
end Symbolic
