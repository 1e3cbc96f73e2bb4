import Symbolic.Expr.Frame
import Symbolic.Proofs.MemoTransparent

/-! Simplifying a part of an expression beforehand does not change the normal form of the whole. -/
namespace Symbolic

namespace Frame

open Symbolic.Expr

variable {frame : Frame} {e e' c : Expr}

@[simp] theorem op?_plug (frame : Frame) (e : Expr) : (frame.plug e).op? = some frame.op := by
  cases frame <;> rfl

theorem isAtomic_plug (frame : Frame) (e : Expr) : (frame.plug e).isAtomic = false := by
  rw [isAtomic_eq, op?_plug, Option.isNone_some]

theorem canonical_plug (h : frame.Canonical) (e : Expr) :
    ∀ bag ∈ (frame.plug e).bag?, Bag.Canonical bag := by
  cases frame with
  | nary op others count =>
    rintro bag ⟨⟩
    exact Bag.canonical_insertMany e count h
  | unary | left | right | condition | thenBranch | elseBranch | function | argument =>
    exact fun _ hb => nomatch hb

theorem eq_or_mem_siblings (h : c ∈ (frame.plug e).children) : c = e ∨ c ∈ frame.siblings := by
  cases frame with
  | nary op others count => exact List.mem_cons.mp (Bag.keys_insertMany_subset e count others h)
  | unary | left | right | condition | thenBranch | elseBranch | function | argument =>
    simp only [plug, children, ordered, siblings, List.mem_cons, List.mem_append, List.not_mem_nil,
      or_false] at h ⊢
    grind

theorem siblings_subset (h : frame.Canonical) (e : Expr) :
    frame.siblings ⊆ (frame.plug e).children := by
  intro c hc
  cases frame with
  | nary op others count => exact Bag.keys_subset_insertMany h hc
  | unary => exact nomatch hc
  | left | right | condition | thenBranch | elseBranch | function | argument =>
    simp only [plug, children, ordered, siblings, List.mem_cons, List.mem_append, List.not_mem_nil,
      or_false] at hc ⊢
    grind

/-- The hole is filled, unless it is one of no copies in a multiset. -/
theorem mem_children_or_plug_eq (frame : Frame) (e e' : Expr) :
    e ∈ (frame.plug e).children ∨ frame.plug e' = frame.plug e := by
  cases frame with
  | nary op others count =>
    by_cases hn : count = 0
    · subst hn
      exact Or.inr rfl
    · exact Or.inl (Bag.mem_keys_insertMany_self hn)
  | unary | left | right | condition | thenBranch | elseBranch | function | argument =>
    exact Or.inl (by simp [plug, children, ordered])

/-- Over equal images the node is the same, whatever was in the hole. -/
theorem rebuilt_plug (h : frame.Canonical) {f f' : Expr → Expr} (he : f e = f' e')
    (hs : ∀ c ∈ frame.siblings, f c = f' c) :
    (frame.plug e).rebuilt f = (frame.plug e').rebuilt f' := by
  rw [rebuilt_eq_withChildren (canonical_plug h e), rebuilt_eq_withChildren (canonical_plug h e')]
  cases frame with
  | nary op others count =>
    simp only [plug, withChildren_nary]
    exact congrArg (Expr.nary op) (Bag.images_insertMany he hs)
  | function args =>
    have hargs : args.map f = args.map f' := List.map_congr_left hs
    simp [plug, children, ordered, withChildren, he, hargs]
  | argument callee before after =>
    obtain ⟨hcallee, hs⟩ := List.forall_mem_cons.mp hs
    have hbefore : before.map f = before.map f' :=
      List.map_congr_left fun c hc => hs c (List.mem_append_left _ hc)
    have hafter : after.map f = after.map f' :=
      List.map_congr_left fun c hc => hs c (List.mem_append_right _ hc)
    simp [plug, children, ordered, withChildren, he, hcallee, hbefore, hafter]
  | unary | left | right | condition | thenBranch | elseBranch =>
    simp only [siblings, List.mem_cons, List.not_mem_nil, or_false, forall_eq_or_imp, forall_eq,
      false_imp_iff, implies_true] at hs
    simp [plug, children, ordered, withChildren, he, hs]

end Frame

namespace Engine

open Symbolic.Expr

variable {engine : Engine} {levels steps : Nat} {parent : Option Operator} {e e' n : Expr}
  {frame : Frame}

theorem rewrite?_of_ignoresParent {registry : Registry} (hr : registry.IgnoresParent)
    (config : Config) (recalls : Bool) (parent parent' : Option Operator) (e : Expr) :
    rewrite? ⟨registry, config, recalls⟩ parent e =
      rewrite? ⟨registry, config, recalls⟩ parent' e := by
  simp only [rewrite?]
  cases e.op? with
  | none => rfl
  | some op =>
    exact firstRewrite_congr fun rule hm =>
      hr rule (Registry.mem_rules_of_mem_candidates hm) parent parent' config e

theorem rewrite?_anywhere (hd : engine.registry = .default) (parent parent' : Option Operator)
    (e : Expr) : engine.rewrite? parent e = engine.rewrite? parent' e := by
  obtain ⟨registry, config, recalls⟩ := engine
  subst hd
  exact rewrite?_of_ignoresParent Registry.ignoresParent_default config recalls parent parent' e

/-- Below the node itself the operator above it is not seen. -/
theorem Normalizes.under {parent' : Option Operator}
    (hp : ∀ e, engine.rewrite? parent e = engine.rewrite? parent' e)
    (h : engine.Normalizes levels parent e n steps) :
    engine.Normalizes levels parent' e n steps := by
  induction h with
  | atom ha => exact .atom ha
  | settled image cost ha hc hr => exact .settled image cost ha hc ((hp _).symm.trans hr)
  | rewritten image cost step ha hc hr hn _ ihn =>
    exact .rewritten image cost step ha hc ((hp _).symm.trans hr) (ihn hp)

/-- Whatever an expression is normalized to, the other one is normalized to as well. -/
def Follows (engine : Engine) (e e' : Expr) : Prop :=
  ∀ levels parent n steps, engine.Normalizes levels parent e n steps →
    ∃ levels' steps', engine.Normalizes levels' parent e' n steps'

/-- An expression is followed by its normal form under every operator, if the rules do not see which
one it is. -/
theorem Normalizes.follows
    (hp : ∀ parent parent' e, engine.rewrite? parent e = engine.rewrite? parent' e)
    (h : engine.Normalizes levels parent e n steps) : engine.Follows e n := by
  intro levels' parent' n' steps' h'
  obtain ⟨rfl, _⟩ := (h.under (hp parent parent')).deterministic h'
  exact ⟨n.depth, 0, h'.normalForm.normalizes (Nat.le_refl _)⟩

/-- The children of a node with another expression in the hole have images that make it the same
node. The expression may meet a copy of itself there, which then has the image of both. -/
theorem Follows.images (h : engine.Follows e e') (hf : frame.Canonical) {image : Expr → Expr}
    {cost : Expr → Nat} (hc : ∀ c ∈ (frame.plug e).children,
      engine.Normalizes levels (some frame.op) c (image c) (cost c)) :
    ∃ (levels' : Nat) (image' : Expr → Expr) (cost' : Expr → Nat),
      (∀ c ∈ (frame.plug e').children,
        engine.Normalizes levels' (some frame.op) c (image' c) (cost' c)) ∧
      (frame.plug e').rebuilt image' = (frame.plug e).rebuilt image := by
  rcases frame.mem_children_or_plug_eq e e' with hm | hplug
  · obtain ⟨levels', steps', hn⟩ := h _ _ _ _ (hc e hm)
    have hsiblings := Frame.siblings_subset hf e
    refine ⟨max levels levels', fun c => if c = e' then image e else image c,
      fun c => if c = e' then steps' else cost c, ?_, ?_⟩
    · intro c hmem
      dsimp only
      split
      · next he =>
        rw [he]
        exact hn.mono (Nat.le_max_right _ _)
      · next hne =>
        have hsibling := (Frame.eq_or_mem_siblings hmem).resolve_left hne
        exact (hc c (hsiblings hsibling)).mono (Nat.le_max_left _ _)
    · refine Frame.rebuilt_plug hf (if_pos rfl) fun c hsibling => ?_
      split
      · next he =>
        subst he
        exact (hn.deterministic (hc c (hsiblings hsibling))).1
      · rfl
  · exact ⟨levels, image, cost, hplug ▸ hc, by rw [hplug]⟩

theorem Follows.plug (h : engine.Follows e e') (hf : frame.Canonical) :
    engine.Follows (frame.plug e) (frame.plug e') := by
  intro levels parent n steps hn
  have ha := frame.isAtomic_plug e'
  cases hn with
  | atom ha' => simp [Frame.isAtomic_plug] at ha'
  | settled image cost _ hc hr =>
    simp only [Frame.op?_plug] at hc
    obtain ⟨levels', image', cost', hc', hsame⟩ := h.images hf hc
    rw [← hsame] at hr ⊢
    exact ⟨_, _, .settled image' cost' ha (by simpa using hc') hr⟩
  | rewritten image cost step _ hc hr hn =>
    simp only [Frame.op?_plug] at hc
    obtain ⟨levels', image', cost', hc', hsame⟩ := h.images hf hc
    rw [← hsame] at hr
    -- The constructor has the children and the rewritten node at one level.
    refine ⟨max levels' _ + 1, _, .rewritten image' cost' step ha ?_ hr
      (hn.mono (Nat.succ_le_succ (Nat.le_max_right levels' _)))⟩
    simpa using fun c hm => (hc' c hm).mono (Nat.le_max_left _ _)

theorem Follows.inside {frames : List Frame} (hf : ∀ frame ∈ frames, frame.Canonical)
    (h : engine.Follows e e') : engine.Follows (e.inside frames) (e'.inside frames) := by
  induction frames generalizing e e' with
  | nil => exact h
  | cons frame rest ih =>
    obtain ⟨hframe, hrest⟩ := List.forall_mem_cons.mp hf
    exact ih hrest (h.plug hframe)

theorem follows_of_simplify {s s' : Expr} {config : Config} (h : simplify s config = .ok s') :
    Follows ⟨.default, config, true⟩ s s' := by
  obtain ⟨levels, steps, hn⟩ := normalizes_of_simplify h
  exact hn.follows (rewrite?_of_ignoresParent Registry.ignoresParent_default config true)

/-- Simplifying a part beforehand does not change what the whole becomes. -/
theorem simplify_inside_eq {s s' r r' : Expr} {config : Config} {frames : List Frame}
    (hf : ∀ frame ∈ frames, frame.Canonical) (hs : simplify s config = .ok s')
    (h : simplify (s.inside frames) config = .ok r)
    (h' : simplify (s'.inside frames) config = .ok r') : r = r' := by
  obtain ⟨levels, steps, hn⟩ := normalizes_of_simplify h
  obtain ⟨levels', steps', hn'⟩ := normalizes_of_simplify h'
  obtain ⟨_, _, hagain⟩ := (follows_of_simplify hs).inside hf levels none r steps hn
  exact (hagain.deterministic hn').1

/-- Nor does it keep the whole from becoming that, if the limits are large enough. -/
theorem exists_limits_simplify_inside {s s' r : Expr} {config : Config} {frames : List Frame}
    (hf : ∀ frame ∈ frames, frame.Canonical) (hs : simplify s config = .ok s')
    (h : simplify (s.inside frames) config = .ok r) :
    ∃ steps depth, ∀ maxSteps maxDepth, steps ≤ maxSteps → depth ≤ maxDepth →
      simplify (s'.inside frames) { config with maxSteps, maxDepth } = .ok r := by
  obtain ⟨levels, steps, hn⟩ := normalizes_of_simplify h
  obtain ⟨_, _, hn'⟩ := (follows_of_simplify hs).inside hf levels none r steps hn
  obtain ⟨enough, deep, hlimits⟩ :=
    exists_limits_of_normalizes Registry.ignoresLimits_default hn' true
  refine ⟨enough, deep, fun maxSteps maxDepth hsteps hdepth => ?_⟩
  exact simplify_eq_ok_iff.mpr (hlimits maxSteps maxDepth hsteps hdepth)

/-- In `~(y & (x + x) & x * 2)` the simplified sum meets its own copy. -/
theorem simplify_inside_eq_of_met_copy :
    let double := Expr.nary .mul [(.int 2, 1), (.symbol "x", 1)]
    let frames := [Frame.nary .bitAnd [(.symbol "y", 1), (double, 1)] 1, .unary .bitNot]
    simplify (.nary .add [(.symbol "x", 2)]) = .ok double ∧
      ∃ r r', simplify ((Expr.nary .add [(.symbol "x", 2)]).inside frames) = .ok r ∧
        simplify (double.inside frames) = .ok r' ∧ r = r' := by
  have hs : simplify (.nary .add [(.symbol "x", 2)]) =
      .ok (.nary .mul [(.int 2, 1), (.symbol "x", 1)]) := rfl
  have h : simplify ((Expr.nary .add [(.symbol "x", 2)]).inside
      [.nary .bitAnd [(.symbol "y", 1), (.nary .mul [(.int 2, 1), (.symbol "x", 1)], 1)] 1,
        .unary .bitNot]) =
      .ok (.unary .bitNot (.nary .bitAnd [(.symbol "y", 1),
        (.nary .mul [(.int 2, 1), (.symbol "x", 1)], 1)])) := rfl
  have h' : simplify ((Expr.nary .mul [(.int 2, 1), (.symbol "x", 1)]).inside
      [.nary .bitAnd [(.symbol "y", 1), (.nary .mul [(.int 2, 1), (.symbol "x", 1)], 1)] 1,
        .unary .bitNot]) =
      .ok (.unary .bitNot (.nary .bitAnd [(.symbol "y", 1),
        (.nary .mul [(.int 2, 1), (.symbol "x", 1)], 1)])) := rfl
  exact ⟨hs, _, _, h, h', simplify_inside_eq (by decide) hs h h'⟩

end Engine
end Symbolic
