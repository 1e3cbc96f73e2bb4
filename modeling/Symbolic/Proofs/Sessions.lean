import Symbolic.Proofs.TreeSample
import Symbolic.Proofs.TreeStorage

/-! Simplification in a session runs on trees, and shows what the run on expressions gives. -/
namespace Symbolic

open Symbolic.Tree (ofExpr)

variable {registry : Registry} {rule : Rule} {rules : List Rule} {names : List String}
  {name : String} {e e' : Expr} {ctx : Context}

namespace Rules

open Symbolic.Expr (wellFormed_unary wellFormed_binary wellFormed_pair wellFormed_neg wellFormed_int
  wellFormed_of_ordered)

theorem wellFormed_of_mem_ordered (hw : e.WellFormed) {c : Expr} (hc : c ∈ e.ordered) :
    c.WellFormed := by
  cases e with
  | constant | symbol | nary => cases hc
  | unary | binary | conditional | call => exact hw.of_mem_children hc

theorem wellFormed_doubleComplement (hw : e.WellFormed)
    (h : doubleComplement.rewrite ctx e = .ok e') : e'.WellFormed := by
  obtain rfl := Except.ok.inj h
  cases hinner : e.ordered.head? with
  | none => exact hw
  | some inner =>
    have hinner := wellFormed_of_mem_ordered hw (List.mem_of_head? hinner)
    cases harg : inner.ordered.head? with
    | none => simpa [harg] using hw
    | some arg => simpa [harg] using wellFormed_of_mem_ordered hinner (List.mem_of_head? harg)

theorem wellFormed_operands {op : BinaryOp} {lhs rhs : Expr}
    (hw : (Expr.binary op lhs rhs).WellFormed) : lhs.WellFormed ∧ rhs.WellFormed :=
  ⟨wellFormed_of_mem_ordered hw (by simp [Expr.ordered]),
    wellFormed_of_mem_ordered hw (by simp [Expr.ordered])⟩

theorem wellFormed_sumComplement (hw : e.WellFormed)
    (h : sumComplement.rewrite ctx e = .ok e') : e'.WellFormed := by
  cases harg : e.ordered.head? with
  | none =>
    simp only [sumComplement, harg] at h
    exact Except.ok.inj h ▸ hw
  | some arg =>
    simp only [sumComplement, harg] at h
    obtain rfl := Except.ok.inj h
    have harg := wellFormed_neg (wellFormed_of_mem_ordered hw (List.mem_of_head? harg))
    exact wellFormed_pair .add harg (wellFormed_neg (wellFormed_int 1))

theorem wellFormed_rootCall (hw : e.WellFormed) : (Expr.call (.symbol "root") [e]).WellFormed := by
  refine wellFormed_of_ordered rfl (List.forall_mem_cons.mpr ⟨?_, List.forall_mem_singleton.mpr hw⟩)
  exact Expr.wellFormed_iff.mpr ⟨by simp [Expr.bag?], by simp [Expr.children, Expr.ordered]⟩

theorem wellFormed_badArity (hw : e.WellFormed)
    (h : badArity.rewrite ctx e = .ok e') : e'.WellFormed := by
  cases hbuilt : Expr.operation .conditional e.ordered with
  | error cause => simp [badArity, hbuilt, Except.mapError] at h
  | ok built =>
    simp only [badArity, hbuilt, Except.mapError, Except.ok.injEq] at h
    exact h ▸ Expr.wellFormed_operation hbuilt fun c => wellFormed_of_mem_ordered hw

/-- The rules outside the default set keep a node well formed. -/
theorem wellFormed_of_mem_samples (hm : rule ∈ samples) (hw : e.WellFormed)
    (h : rule.rewrite ctx e = .ok e') : e'.WellFormed := by
  simp only [samples, List.mem_cons, List.not_mem_nil, or_false] at hm
  rcases hm with rfl | rfl | rfl | rfl | rfl | rfl | rfl | rfl | rfl | rfl
  · exact wellFormed_doubleComplement hw h
  · cases e with
    | binary op lhs rhs =>
      obtain ⟨hl, hr⟩ := wellFormed_operands hw
      exact Except.ok.inj h ▸ wellFormed_unary .not (wellFormed_binary .le hr hl)
    | constant | symbol | nary | unary | conditional | call => exact Except.ok.inj h ▸ hw
  · cases e with
    | binary op lhs rhs =>
      obtain ⟨hl, hr⟩ := wellFormed_operands hw
      exact Except.ok.inj h ▸ wellFormed_binary .lt hr hl
    | constant | symbol | nary | unary | conditional | call => exact Except.ok.inj h ▸ hw
  · exact Except.ok.inj h ▸ wellFormed_unary .bitNot (wellFormed_unary .bitNot hw)
  · cases e with
    | binary op lhs rhs => exact Except.ok.inj h ▸ (wellFormed_operands hw).1
    | constant | symbol | nary | unary | conditional | call => exact Except.ok.inj h ▸ hw
  · exact Except.ok.inj h ▸ hw
  · exact wellFormed_sumComplement hw h
  · exact Except.ok.inj h ▸ wellFormed_rootCall hw
  · cases e with
    | binary op lhs rhs =>
      obtain ⟨hl, hr⟩ := wellFormed_operands hw
      have hwrapped := wellFormed_binary .mod hr (wellFormed_int ctx.config.wordBits)
      exact Except.ok.inj h ▸ wellFormed_binary .rol hl hwrapped
    | constant | symbol | nary | unary | conditional | call => exact Except.ok.inj h ▸ hw
  · exact wellFormed_badArity hw h

/-- A name stands for rules that are known. -/
theorem subset_of_collection? (h : collection? name = some rules) : rules ⊆ all ++ samples := by
  have hfamily {family : List Rule} (hsub : family ⊆ all) (heq : some family = some rules) :
      rules ⊆ all ++ samples :=
    Option.some.inj heq ▸ List.subset_append_of_subset_left samples hsub
  unfold collection? at h
  split at h
  · exact hfamily (List.Subset.refl all) h
  · exact hfamily (fun rule hm => by simp [all, hm]) h
  · exact hfamily (fun rule hm => by simp [all, hm]) h
  · exact hfamily (fun rule hm => by simp [all, hm]) h
  · exact hfamily (fun rule hm => by simp [all, hm]) h
  · obtain ⟨rule, hnamed, rfl⟩ := Option.map_eq_some_iff.mp h
    intro other hm
    exact List.mem_singleton.mp hm ▸ List.mem_of_find?_eq_some hnamed

end Rules

namespace Registry

/-- A registry of rules that are known on trees too, offered as they were registered. -/
structure Known (registry : Registry) : Prop where
  indexed : registry.Indexed
  subset : registry.rules ⊆ Rules.all ++ Rules.samples

theorem known_empty : empty.Known := ⟨indexed_empty, List.nil_subset _⟩

theorem Known.registerAll (h : registry.Known) (hrules : rules ⊆ Rules.all ++ Rules.samples) :
    (registry.registerAll rules).Known where
  indexed := indexed_registerAll h.indexed rules
  subset := by
    rw [rules_registerAll]
    exact List.append_subset.mpr ⟨h.subset, hrules⟩

/-- Whatever a session registers by name. -/
theorem Known.registerNamed (h : registry.Known) (names : List String) :
    (registry.registerNamed names).1.Known := by
  induction names generalizing registry with
  | nil => exact h
  | cons name rest ih =>
    rw [Registry.registerNamed]
    cases hc : Rules.collection? name with
    | none => exact h
    | some rules => exact ih (h.registerAll (Rules.subset_of_collection? hc))

theorem Known.refines (h : registry.Known) :
    List.Forall₂ Tree.Rule.Refines registry.onTrees registry.rules := by
  have hsubset := h.subset
  rw [onTrees]
  generalize registry.rules = rules at hsubset
  induction rules with
  | nil => exact .nil
  | cons rule rest ih =>
    obtain ⟨hrule, hrest⟩ := List.cons_subset.mp hsubset
    obtain ⟨rule', hnamed, hrefines⟩ := Tree.Rules.exists_named_of_mem hrule
    have hcons : (rule :: rest).filterMap (fun rule => Tree.Rules.named? rule.name) =
        rule' :: rest.filterMap fun rule => Tree.Rules.named? rule.name :=
      List.filterMap_cons_some hnamed
    rw [hcons]
    exact .cons hrefines (ih hrest)

theorem Known.follows (h : registry.Known) (config : Config) :
    Machine.Follows ⟨registry.onTrees, config⟩ ⟨registry, config, true⟩ where
  config_eq := rfl
  recalls := rfl
  indexed := h.indexed
  refines := h.refines
  buildsWellFormed parent op e e' hw ho rule hm ha hr := by
    rw [candidates_of_indexed h.indexed] at hm
    obtain ⟨hrule, hcovers⟩ := List.mem_filter.mp hm
    rcases List.mem_append.mp (h.subset hrule) with hall | hsample
    · exact Rules.wellFormed_of_mem_all hall ho hcovers ha hw hr
    · exact Rules.wellFormed_of_mem_samples hsample hw hr

theorem simplifyError?_of (err : SimplifyError) :
    (Tree.Failure.of err).simplifyError? = some err := by
  have hstep (step : Step) : (Tree.Step.of step).step? = some step := by
    simp [Tree.Step.of, Tree.Step.step?, Tree.expr?_ofExpr]
  cases err with
  | nonTerminating limit recent =>
    have hrecent : (recent.map Tree.Step.of).mapM Tree.Step.step? = some recent := by
      induction recent with
      | nil => rfl
      | cons step rest ih => simp [hstep, ih]
    simp [Tree.Failure.of, Tree.Failure.simplifyError?, hrecent]
  | construction | undefinedOperation | tooDeep => rfl

/-- A simplification shows the result, the counts and the failure of the run on expressions, unless
the process ends. -/
theorem Known.simplify (h : registry.Known) (config : Config) (he : e.WellFormed) :
    (∃ o statistics, simplifyWith registry config e = .ok o ∧ Machine.Counts statistics o ∧
        registry.simplify config e = .ok ⟨o.expr, statistics⟩) ∨
    (∃ err, simplifyWith registry config e = .error err ∧
        registry.simplify config e = .error (.failed err)) ∨
    ∃ cause, Machine.Halts ⟨registry.onTrees, config⟩ cause ∧
        registry.simplify config e = .error .halted := by
  rcases (h.follows config).simplify he (Nat.lt_succ_self config.maxSteps) with
    ⟨o, statistics, hrun, hcounts, hmachine⟩ | ⟨err, hrun, hmachine⟩ | ⟨cause, hcause, hmachine⟩
  · refine Or.inl ⟨o, statistics, hrun, hcounts, ?_⟩
    simp only [Registry.simplify, hmachine]
    rw [Attempt.expr, Tree.expr?_ofExpr]
    rfl
  · refine Or.inr (Or.inl ⟨err, hrun, ?_⟩)
    simp only [Registry.simplify, hmachine]
    rw [Exit.sessionError, simplifyError?_of]
    rfl
  · refine Or.inr (Or.inr ⟨cause, hcause, ?_⟩)
    simp only [Registry.simplify, hmachine]
    rfl

end Registry
end Symbolic
