import Symbolic.Proofs.Compositional

/-! No rewrite hides an undefined operation: a run visits every node with its children normalized,
and constants are folded before any other rule sees them. -/
namespace Symbolic.Engine

open Rules Symbolic.Expr

variable {engine : Engine} {levels steps : Nat} {parent : Option Operator} {e n : Expr}

/-- Every node is normalized where it stands, whatever becomes of it later. -/
theorem Normalizes.occurrence (h : engine.Normalizes levels parent e n steps) {o : Occurrence}
    (ho : o ∈ e.occurrences parent) :
    ∃ levels n steps, engine.Normalizes levels o.1 o.2 n steps := by
  induction e using Expr.induction generalizing levels parent n steps with
  | h e ih =>
    rw [occurrences_eq_cons] at ho
    rcases List.mem_cons.mp ho with rfl | ho
    · exact ⟨_, _, _, h⟩
    · obtain ⟨c, hc, ho⟩ := List.mem_flatMap.mp ho
      obtain ⟨_, _, _, hchild⟩ := h.child hc
      exact ih c hc hchild ho

variable {op : BinaryOp} {a b : Number} {l r : Expr} {cause : NumericError}

/-- Of the rules that a binary operation is offered folding is the first. -/
theorem rewrite?_undefined (hd : engine.registry = .default)
    (he : op.eval a b engine.config.wordBits = .error cause) (parent : Option Operator) :
    engine.rewrite? parent (.binary op (.constant a) (.constant b)) =
      .error (.undefinedOperation (.binary op) cause) := by
  obtain ⟨rest, hfirst⟩ : ∃ rest, Rules.all.filter (fun rule => rule.trigger.covers (.binary op)) =
      foldBinary :: rest := by cases op <;> exact ⟨_, rfl⟩
  simp only [rewrite?, op?, hd, Registry.candidates_default, hfirst, firstRewrite]
  simp [foldBinary, isConstant, constant?, folded, he]

theorem not_normalizes_of_undefined (hd : engine.registry = .default)
    (hl : ∃ levels steps, engine.Normalizes levels (some (.binary op)) l (.constant a) steps)
    (hr : ∃ levels steps, engine.Normalizes levels (some (.binary op)) r (.constant b) steps)
    (he : op.eval a b engine.config.wordBits = .error cause) :
    ¬ engine.Normalizes levels parent (.binary op l r) n steps := by
  obtain ⟨_, _, hl⟩ := hl
  obtain ⟨_, _, hr⟩ := hr
  have hrebuilt {levels : Nat} {image : Expr → Expr} {cost : Expr → Nat}
      (hc : ∀ c ∈ (Expr.binary op l r).children,
        engine.Normalizes levels (some (.binary op)) c (image c) (cost c)) :
      (Expr.binary op l r).rebuilt image = .binary op (.constant a) (.constant b) := by
    have hleft := (hl.deterministic (hc l List.mem_cons_self)).1
    have hright := (hr.deterministic (hc r (List.mem_cons_of_mem _ List.mem_cons_self))).1
    rw [rebuilt_eq_withChildren (by rintro bag ⟨⟩)]
    simp [children, ordered, withChildren, ← hleft, ← hright]
  intro h
  cases h with
  | atom ha => cases ha
  | settled image cost _ hc hsettled =>
    rw [hrebuilt hc, rewrite?_undefined hd he] at hsettled
    cases hsettled
  | rewritten image cost step _ hc hstep =>
    rw [hrebuilt hc, rewrite?_undefined hd he] at hstep
    cases hstep

/-- Where the operands of a binary operation simplify to constants on which it is undefined, no
expression that holds it simplifies. -/
theorem simplify_ne_ok_of_undefined {config : Config}
    (ho : (parent, .binary op l r) ∈ e.occurrences none)
    (hl : simplify l config = .ok (.constant a)) (hr : simplify r config = .ok (.constant b))
    (he : op.eval a b config.wordBits = .error cause) : simplify e config ≠ .ok n := by
  intro h
  obtain ⟨_, _, hnormalizes⟩ := normalizes_of_simplify h
  obtain ⟨_, _, _, hnode⟩ := hnormalizes.occurrence ho
  have hunder (e : Expr) :=
    rewrite?_of_ignoresParent Registry.ignoresParent_default config true none
    (some (.binary op)) e
  obtain ⟨_, _, hl⟩ := normalizes_of_simplify hl
  obtain ⟨_, _, hr⟩ := normalizes_of_simplify hr
  exact not_normalizes_of_undefined rfl ⟨_, _, hl.under hunder⟩ ⟨_, _, hr.under hunder⟩ he hnode

/-- The division by `x + -1 * x` fails the product with zero in which it stands. -/
theorem simplify_ne_ok_of_absorbed_division :
    let x := Expr.symbol "x"
    let divisor := Expr.sub x x
    let e := Expr.mul (.int 0) (.conditional (.int 1) x (.floorDiv (.int 1) divisor))
    (some Operator.conditional, Expr.binary .floorDiv (.int 1) divisor) ∈ e.occurrences none ∧
      simplify (.int 1) = .ok (.constant 1) ∧ simplify divisor = .ok (.constant 0) ∧
      BinaryOp.eval .floorDiv 1 0 32 = .error .divisionByZero ∧ ∀ n, simplify e ≠ .ok n := by
  have hl : simplify (.int 1) = .ok (.constant 1) := rfl
  have hr : simplify (.sub (.symbol "x") (.symbol "x")) = .ok (.constant 0) := rfl
  have ho : (some Operator.conditional,
      Expr.binary .floorDiv (.int 1) (.sub (.symbol "x") (.symbol "x"))) ∈
      (Expr.mul (.int 0) (.conditional (.int 1) (.symbol "x")
        (.floorDiv (.int 1) (.sub (.symbol "x") (.symbol "x"))))).occurrences none := by decide
  exact ⟨ho, hl, hr, rfl, fun n => simplify_ne_ok_of_undefined ho hl hr rfl⟩

end Symbolic.Engine
