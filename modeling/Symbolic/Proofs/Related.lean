import Symbolic.Proofs.Registry
import Symbolic.Proofs.RunSound
import Symbolic.Rules.Sample

/-! A run adds nothing to its rules: it stays inside each relation that the rules and the
replacement of children stay inside. -/
namespace Symbolic

/-- An order of expressions that is kept where children are replaced: an operation is related to the
operation over the images of its children, where each child is related to its image. -/
structure Compatible (r : Expr → Expr → Prop) : Prop where
  refl (e : Expr) : r e e
  trans {e e' e'' : Expr} : r e e' → r e' e'' → r e e''
  rebuilt {e : Expr} {f : Expr → Expr} : (∀ c ∈ e.children, r c (f c)) → r e (e.rebuilt f)

/-- An equivalence of expressions that replacing children respects, also where a multiset merges the
images that meet. -/
structure Congruence (r : Expr → Expr → Prop) : Prop where
  equivalence : Equivalence r
  mapChildren {image : Expr → Except SimplifyError Expr} {e e' : Expr} : e.WellFormed →
    e.mapChildren image = .ok e' → (∀ c ∈ e.children, ∀ c', image c = .ok c' → r c c') → r e e'

namespace Registry

/-- Each rewrite by a rule that is offered a well-formed node and applies there. -/
def ForallRewrites (registry : Registry) (config : Config) (p : Expr → Expr → Prop) : Prop :=
  ∀ (parent : Option Operator) (op : Operator) (e e' : Expr), e.WellFormed → e.op? = some op →
    ∀ rule ∈ registry.candidates op, rule.applies ⟨parent, config⟩ e = true →
      rule.rewrite ⟨parent, config⟩ e = .ok e' → p e e'

/-- The rules build canonical multisets only. -/
def BuildsWellFormed (registry : Registry) (config : Config) : Prop :=
  registry.ForallRewrites config fun _ e' => e'.WellFormed

end Registry

namespace Expr

variable {e : Expr} {f : Expr → Expr} {ε : Type}

theorem mapAll_ok (f : Expr → Expr) (es : List Expr) :
    mapAll (ε := ε) (fun c => .ok (f c)) es = .ok (es.map f) := by
  induction es with
  | nil => rfl
  | cons e rest ih => simp [mapAll, ih]

theorem mapChildren_ok (f : Expr → Expr) (e : Expr) :
    mapChildren (ε := ε) (fun c => .ok (f c)) e = .ok (e.withChildren (e.children.map f)) := by
  rw [mapChildren, mapAll_ok]
  rfl

theorem exists_of_mapAll_eq_ok {image : Expr → Except ε Expr} {es images : List Expr}
    (h : mapAll image es = .ok images) :
    ∃ f : Expr → Expr, (∀ c ∈ es, image c = .ok (f c)) ∧ images = es.map f := by
  refine ⟨fun c => (image c).toOption.getD c, ?_⟩
  induction es generalizing images with
  | nil =>
    cases h
    exact ⟨by simp, rfl⟩
  | cons e rest ih =>
    simp only [mapAll] at h
    cases hi : image e with
    | error err => simp [hi] at h
    | ok first =>
      cases hr : mapAll image rest with
      | error err => simp [hi, hr] at h
      | ok later =>
        simp only [hi, hr, Except.ok.injEq] at h
        obtain ⟨hrest, hlater⟩ := ih hr
        have hfirst : (image e).toOption.getD e = first := by rw [hi]; rfl
        refine ⟨?_, ?_⟩
        · intro c hc
          rcases List.mem_cons.mp hc with rfl | hc
          · exact hi.trans (congrArg Except.ok hfirst.symm)
          · exact hrest c hc
        · rw [← h, List.map_cons, hfirst, ← hlater]

theorem exists_of_mapChildren_eq_ok {image : Expr → Except ε Expr} {e' : Expr}
    (h : e.mapChildren image = .ok e') :
    ∃ f : Expr → Expr, (∀ c ∈ e.children, image c = .ok (f c)) ∧
      e' = e.withChildren (e.children.map f) := by
  simp only [mapChildren] at h
  cases hm : mapAll image e.children with
  | error err => simp [hm, Except.map] at h
  | ok images =>
    obtain ⟨f, hf, rfl⟩ := exists_of_mapAll_eq_ok hm
    simp only [hm, Except.map, Except.ok.injEq] at h
    exact ⟨f, hf, h.symm⟩

/-- No child is lost where a canonical multiset is built anew. -/
theorem forall_children_rebuilt_iff (h : ∀ bag ∈ e.bag?, Bag.Canonical bag) {p : Expr → Prop} :
    (∀ c ∈ (e.rebuilt f).children, p c) ↔ ∀ c ∈ e.children, p (f c) := by
  rw [rebuilt_eq_withChildren h]
  cases e with
  | constant | symbol => simp [children, ordered, withChildren]
  | nary op terms =>
    have hcanonical : Bag.Canonical terms := h terms rfl
    have hperm := Bag.elements_ofEntries (terms.map fun entry => (f entry.1, entry.2))
    simp only [Bag.elements_map] at hperm
    have hkeys (c : Expr) : c ∈ Bag.keys
      (Bag.ofEntries (terms.map fun entry => (f entry.1, entry.2))) ↔
        ∃ x ∈ Bag.keys terms, f x = c := by
      rw [← Bag.mem_elements_iff_mem_keys (Bag.canonical_ofEntries _), hperm.mem_iff, List.mem_map]
      simp only [Bag.mem_elements_iff_mem_keys hcanonical]
    rw [withChildren_nary]
    constructor
    · intro hp x hx
      exact hp (f x) ((hkeys (f x)).mpr ⟨x, hx, rfl⟩)
    · intro hp c hc
      obtain ⟨x, hx, rfl⟩ := (hkeys c).mp hc
      exact hp x hx
  | unary | binary | conditional | call => simp [children, ordered, withChildren]

end Expr

variable {r : Expr → Expr → Prop}

/-- The order of well-formed expressions that have only well-formed ones above them. -/
theorem Compatible.wellFormed (h : Compatible r) :
    Compatible fun e e' => e.WellFormed → e'.WellFormed ∧ r e e' where
  refl e hw := ⟨hw, h.refl e⟩
  trans h₁ h₂ hw := by
    obtain ⟨hw', hr⟩ := h₁ hw
    obtain ⟨hw'', hr'⟩ := h₂ hw'
    exact ⟨hw'', h.trans hr hr'⟩
  rebuilt {e f} hc hw := by
    have himages := fun c hm => hc c hm (hw.of_mem_children hm)
    exact ⟨Expr.wellFormed_rebuilt hw fun c hm => (himages c hm).1,
      h.rebuilt fun c hm => (himages c hm).2⟩

/-- Among well-formed expressions a congruence is kept where children are replaced. -/
theorem Congruence.compatible (h : Congruence r) :
    Compatible fun e e' => e.WellFormed → e'.WellFormed ∧ r e e' where
  refl e hw := ⟨hw, h.equivalence.refl e⟩
  trans h₁ h₂ hw := by
    obtain ⟨hw', hr⟩ := h₁ hw
    obtain ⟨hw'', hr'⟩ := h₂ hw'
    exact ⟨hw'', h.equivalence.trans hr hr'⟩
  rebuilt {e f} hc hw := by
    have himages := fun c hm => hc c hm (hw.of_mem_children hm)
    refine ⟨Expr.wellFormed_rebuilt hw fun c hm => (himages c hm).1, ?_⟩
    rw [Expr.rebuilt]
    split
    · exact h.equivalence.refl e
    · refine h.mapChildren hw (Expr.mapChildren_ok f e) fun c hm c' himage => ?_
      cases himage
      exact (himages c hm).2

namespace Engine

variable {engine : Engine} {levels steps : Nat} {parent : Option Operator} {e n : Expr}

/-- Rewrites of nodes over normal forms are all that a run adds to the replacement of children. -/
theorem Normalizes.related (h : engine.Normalizes levels parent e n steps) (hr : Compatible r)
    (hrewrites : ∀ parent e step, (∀ c ∈ e.children, engine.NormalForm e.op? c) →
      engine.rewrite? parent e = .ok (some step) → r e step.after) : r e n := by
  induction h with
  | atom => exact hr.refl _
  | settled image cost ha hc _ ih => exact hr.rebuilt ih
  | rewritten image cost step ha hc hstep hn ih ihn =>
    have hnormal := normalForm_rebuilt_child fun c hm => (hc c hm).normalForm
    exact hr.trans (hr.rebuilt ih) (hr.trans (hrewrites _ _ step hnormal hstep) ihn)

theorem of_forallRewrites {registry : Registry} {config : Config} {recalls : Bool}
    {p : Expr → Expr → Prop} (hp : registry.ForallRewrites config p) (hw : e.WellFormed)
    {step : Step}
    (h : rewrite? ⟨registry, config, recalls⟩ parent e = .ok (some step)) : p e step.after := by
  simp only [rewrite?] at h
  cases ho : e.op? with
  | none => simp [ho] at h
  | some op =>
    simp only [ho] at h
    obtain ⟨earlier, rule, later, hsplit, _, happlies, hrewrite, _⟩ :=
      exists_of_firstRewrite_eq_some h
    have hm : rule ∈ registry.candidates op := by simp [hsplit]
    exact hp parent op e step.after hw ho rule hm happlies hrewrite

/-- The result of a simplification is congruent to the expression, for every congruence in which the
rules rewrite. -/
theorem congruent_of_simplifyWith {registry : Registry} {config : Config} (hr : Congruence r)
    (hrules : registry.ForallRewrites config r) (hbuilds : registry.BuildsWellFormed config)
    {o : Outcome} (hw : e.WellFormed) (h : simplifyWith registry config e = .ok o) :
    r e o.expr := by
  obtain ⟨reach, steps, hran⟩ := ran_of_simplifyWith_eq_ok h
  have hrelated := hran.normalizes.related hr.compatible fun _ _ _ _ hstep hw =>
    ⟨of_forallRewrites hbuilds hw hstep, of_forallRewrites hrules hw hstep⟩
  exact (hrelated hw).2

end Engine

/-- The same symbols occur in both expressions. -/
def SameSymbols (e e' : Expr) : Prop :=
  ∀ name, e.Everywhere (· ≠ .symbol name) ↔ e'.Everywhere (· ≠ .symbol name)

theorem congruence_sameSymbols : Congruence SameSymbols where
  equivalence := ⟨fun _ _ => Iff.rfl, fun h name => (h name).symm,
    fun h h' name => (h name).trans (h' name)⟩
  mapChildren {image e e'} hw h hc name := by
    obtain ⟨f, hf, rfl⟩ := Expr.exists_of_mapChildren_eq_ok h
    have hcanonical := (Expr.wellFormed_iff.mp hw).1
    have himages : (∀ c ∈ e.children, c.Everywhere (· ≠ .symbol name)) ↔
        ∀ c ∈ e.children, (f c).Everywhere (· ≠ .symbol name) :=
      forall₂_congr fun c hm => hc c hm _ (hf c hm) name
    rw [← Expr.rebuilt_eq_withChildren hcanonical, Expr.everywhere_iff,
      Expr.everywhere_iff (e := e.rebuilt f), Expr.forall_children_rebuilt_iff hcanonical, himages]
    cases ha : e.isAtomic with
    | true =>
      rw [Expr.rebuilt_of_map_eq]
      simp [Expr.children_of_isAtomic ha]
    | false =>
      have hne (x : Expr) (hx : x.isAtomic = false) : x ≠ .symbol name := by
        rintro rfl
        cases hx
      have hrebuilt := hne (e.rebuilt f) (by rwa [Expr.isAtomic_rebuilt])
      simp [hne e ha, hrebuilt]

theorem forallRewrites_doubleComplement {config : Config} {p : Expr → Expr → Prop}
    (h : ∀ x : Expr, x.WellFormed → p (.bitNot (.bitNot x)) x) :
    (Registry.ofRules [Rules.doubleComplement]).ForallRewrites config p := by
  intro parent op e e' hw ho rule hm ha hr
  rw [Registry.candidates_ofRules, List.mem_filter, List.mem_singleton] at hm
  obtain ⟨rfl, hc⟩ := hm
  obtain rfl : Operator.unary .bitNot = op :=
    by simpa [Rules.doubleComplement, Trigger.covers] using hc
  cases e with
  | unary op arg =>
    cases ho
    cases arg with
    | unary op x =>
      obtain rfl : op = .bitNot :=
        by simpa [Rules.doubleComplement, Expr.ordered, Expr.op?] using ha
      cases hr
      have harg := hw.of_mem_children List.mem_cons_self
      exact h x (harg.of_mem_children List.mem_cons_self)
    | constant | symbol | nary | binary | conditional | call =>
      simp [Rules.doubleComplement, Expr.ordered, Expr.op?] at ha
  | constant | symbol | nary | binary | conditional | call => cases ho

/-- With `~~x` to `x` as the only rule `~~x & x` becomes `x & x`, where the same symbols occur. -/
theorem congruent_of_double_complement :
    let x := Expr.symbol "x"
    let registry := Registry.ofRules [Rules.doubleComplement]
    let e := Expr.bitAnd x (.bitNot (.bitNot x))
    Congruence SameSymbols ∧ registry.ForallRewrites {} SameSymbols ∧ registry.BuildsWellFormed {} ∧
      e.WellFormed ∧ (simplifyWith registry {} e).toOption.map Engine.Outcome.expr =
        some (.nary .bitAnd [(x, 2)]) ∧ SameSymbols e (.nary .bitAnd [(x, 2)]) := by
  have hrun : ∃ o, simplifyWith (.ofRules [Rules.doubleComplement]) {}
      (.bitAnd (.symbol "x") (.bitNot (.bitNot (.symbol "x")))) = .ok o ∧
      o.expr = .nary .bitAnd [(.symbol "x", 2)] := ⟨_, rfl, rfl⟩
  have hrules : (Registry.ofRules [Rules.doubleComplement]).ForallRewrites {} SameSymbols := by
    refine forallRewrites_doubleComplement fun x _ name => ?_
    have hunary (y : Expr) : (Expr.bitNot y).Everywhere (· ≠ .symbol name) ↔
        y.Everywhere (· ≠ .symbol name) := by
      rw [Expr.everywhere_iff]
      simp [Expr.bitNot, Expr.children, Expr.ordered]
    rw [hunary, hunary]
  have hbuilds : (Registry.ofRules [Rules.doubleComplement]).BuildsWellFormed {} :=
    forallRewrites_doubleComplement fun x hx => hx
  refine ⟨congruence_sameSymbols, hrules, hbuilds, by decide, rfl, ?_⟩
  obtain ⟨o, h, hexpr⟩ := hrun
  rw [← hexpr]
  exact Engine.congruent_of_simplifyWith congruence_sameSymbols hrules hbuilds (by decide) h

end Symbolic
