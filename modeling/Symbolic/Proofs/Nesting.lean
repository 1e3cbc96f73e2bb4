import Symbolic.Proofs.Compositional
import Symbolic.Proofs.Parts
import Symbolic.Proofs.ValuePreserved

/-! The nesting of operations of one operator does not matter to their simplification: only the
leaves do. -/
namespace Symbolic

namespace SemigroupOp

theorem total_flatMap {α β : Type} (op : SemigroupOp) (f : β → Int) (g : α → List β) (xs : List α) :
    op.total ((xs.flatMap g).map f) = op.total (xs.map fun x => op.total ((g x).map f)) := by
  induction xs with
  | nil => rfl
  | cons x xs ih =>
    rw [List.flatMap_cons, List.map_append, total_append, ih, List.map_cons, total_cons]

/-- A product is zero, and a conjunction false, where one of the operands is. -/
theorem total_eq_zero_iff {op : SemigroupOp} (hop : op = .mul ∨ op = .and) (vs : List Int) :
    op.total vs = 0 ↔ 0 ∈ vs := by
  have happly (a b : Int) : op.apply a b = 0 ↔ 0 = a ∨ b = 0 := by
    rcases hop with rfl | rfl
    · exact Int.mul_eq_zero.trans (or_congr_left eq_comm)
    · rw [← not_iff_not, not_or, eq_comm (a := 0)]
      exact truth_ne_zero_iff
  induction vs with
  | nil => rcases hop with rfl | rfl <;> simp [neutral]
  | cons v vs ih =>
    rw [total_cons, List.mem_cons]
    exact (happly v _).trans (or_congr_right ih)

end SemigroupOp

namespace Expr

variable {op : SemigroupOp} {terms : Bag} {e x : Expr} {width : Nat}

theorem leaves_nary (op : SemigroupOp) (terms : Bag) :
    (nary op terms).leaves = (Bag.elements terms).flatMap leaves := by
  rw [leaves]
  induction terms with
  | nil => rfl
  | cons entry rest ih =>
    rw [leavesTerms, ih, Bag.elements_cons, List.flatMap_append, List.flatMap_replicate]

/-- Nested operations stand for the total of their leaves. -/
theorem Nests.defined_and_seen_worth (reading : Reading) (h : e.Nests op) :
    e.Defined reading op.place ∧
      op.seen (e.worth reading op.place) = op.total (e.leaves.map (worth reading op.place)) := by
  refine h.induction (fun e hleaf => ?_) fun terms hkeys => ?_
  · cases hleaf <;> exact ⟨rfl, rfl⟩
  · have hdefined : (nary op terms).Defined reading op.place :=
      defined_nary_iff.mpr ⟨Reading.admits_operand rfl, fun x hx => (hkeys x hx).2.1⟩
    refine ⟨hdefined, ?_⟩
    rw [worth_nary hdefined, SemigroupOp.seen_total, leaves_nary, SemigroupOp.total_flatMap]
    refine SemigroupOp.total_congr fun x hx => ?_
    rw [(hkeys x (Bag.mem_keys_of_mem_elements hx)).2.2, SemigroupOp.seen_total]

theorem leaves_of_isLeaf (h : IsLeaf e) : e.leaves = [e] := by cases h <;> rfl

theorem Nests.isLeaf (h : e.Nests op) (hx : x ∈ e.leaves) : IsLeaf x := by
  revert hx
  refine h.induction (fun e hleaf hx => ?_) fun terms hkeys hx => ?_
  · rw [leaves_of_isLeaf hleaf, List.mem_singleton] at hx
    exact hx ▸ hleaf
  · rw [leaves_nary] at hx
    obtain ⟨child, hm, hx⟩ := List.mem_flatMap.mp hx
    exact (hkeys child (Bag.mem_keys_of_mem_elements hm)).2 hx

theorem mem_leaves_of_mem_keys (hb : Bag.Canonical terms) (hx : x ∈ Bag.keys terms) {leaf : Expr}
    (hl : leaf ∈ x.leaves) : leaf ∈ (nary op terms).leaves := by
  rw [leaves_nary]
  exact List.mem_flatMap.mpr ⟨x, (Bag.mem_elements_iff_mem_keys hb).mpr hx, hl⟩

theorem Nests.worth_eq_zero_iff (hop : op = .mul ∨ op = .and) (h : e.Nests op) (env : Assignment) :
    e.worth (.byPlaces width env) op.place = 0 ↔
      ∃ x ∈ e.leaves, x.worth (.byPlaces width env) op.place = 0 := by
  have hworth := (h.defined_and_seen_worth (.byPlaces width env)).2
  rw [← op.seen_eq_zero_iff, hworth, SemigroupOp.total_eq_zero_iff hop]
  exact List.mem_map

/-- Where all symbols are one, only a zero is zero. -/
theorem Nests.zero_mem_iff (hop : op = .mul ∨ op = .and) (h : e.Nests op) : .int 0 ∈ e.leaves ↔
    e.worth (.byPlaces width fun _ => 1) op.place = 0 := by
  rw [h.worth_eq_zero_iff hop]
  refine ⟨fun hm => ⟨_, hm, rfl⟩, ?_⟩
  rintro ⟨x, hx, hzero⟩
  cases h.isLeaf hx with
  | int v =>
    obtain rfl : v = 0 := hzero
    exact hx
  | symbol name => cases hzero

end Expr

namespace Engine

open Rules Symbolic.Expr

variable {config : Config} {engine : Engine} {levels steps : Nat} {parent : Option Operator}
  {op : SemigroupOp} {e n t t' r r' : Expr} {v : Int}

/-- Alone under `||` an integer other than zero becomes one, before the operation is dropped. -/
theorem rewrite?_or_of_ne_zero (hd : engine.registry = .default) (hv : v ≠ 0) :
    engine.rewrite? parent (.nary .or [(.int v, 1)]) =
      .ok (some ⟨"short-circuit", .nary .or [(.int v, 1)], .constant 1⟩) := by
  obtain ⟨later, hcandidates⟩ : ∃ later, engine.registry.candidates (.semigroup .or) =
      [flatten, idempotent] ++ shortCircuit :: later := by
    rw [hd, Registry.candidates_default]
    exact ⟨_, rfl⟩
  have habsorbing : absorbing? (.nary .or [(.int v, 1)]) = some 1 := by
    simp [absorbing?, Expr.int, constant?, absorbed?, Number.isTruthy, Number.isZero, hv]
  have happlies : shortCircuit.applies ⟨parent, engine.config⟩ (.nary .or [(.int v, 1)]) =
      true := by
    simp only [shortCircuit, habsorbing, Option.isSome_some]
  have hrewrite : shortCircuit.rewrite ⟨parent, engine.config⟩ (.nary .or [(.int v, 1)]) =
      .ok (.constant 1) := by
    simp only [shortCircuit, habsorbing]
  refine rewrite?_of_earlier rfl hcandidates (fun rule hm ha => ?_) happlies hrewrite
    (fun hsame => ?_)
  · simp only [List.mem_cons, List.not_mem_nil, or_false] at hm
    rcases hm with rfl | rfl <;> cases ha
  · cases hsame

/-- The only operand of `||` that is left is no integer but zero or one. -/
theorem truth_of_normalizes_operand (hd : engine.registry = .default)
    (hc : engine.NormalForm (some (.semigroup .or)) e) {step : Step} (hstep : step.after = e)
    (hr : engine.rewrite? parent (.nary .or [(e, 1)]) = .ok (some step))
    (h : engine.Normalizes levels parent e (.int v) steps) : v = 0 ∨ v = 1 := by
  obtain ⟨rfl, _⟩ :=
    h.deterministic ((hc.normalizes (Nat.le_refl _)).under (rewrite?_anywhere hd _ _))
  by_cases hv : v = 0
  · exact Or.inl hv
  · rw [rewrite?_or_of_ne_zero hd hv] at hr
    cases hr
    cases hstep
    exact Or.inr rfl

theorem absorbing?_or {terms : Bag} {value : Number}
    (h : absorbing? (.nary .or terms) = some value) :
    value = 1 := by
  obtain ⟨_, _, hv⟩ := exists_of_absorbing? h
  simp only [absorbed?] at hv
  split at hv
  · exact (Option.some.inj hv).symm
  · cases hv

/-- An integer that an operation of `||` is normalized to is a truth value. -/
theorem truth_of_normalizes_or (hd : engine.registry = .default)
    (h : engine.Normalizes levels parent e n steps) (ho : e.op? = some (.semigroup .or))
    (hn : n = .int v) : v = 0 ∨ v = 1 := by
  induction h with
  | atom ha =>
    rw [isAtomic_eq, ho] at ha
    cases ha
  | settled image =>
    rw [← op?_rebuilt image, hn] at ho
    cases ho
  | @rewritten levels steps parent e normal image cost step ha hc hr hnormal _ ih =>
    rw [← op?_rebuilt image] at ho
    obtain ⟨terms, hm⟩ := isNary_iff.mp (decide_eq_true ho)
    have hchildren := normalForm_rebuilt_child fun c hm => (hc c hm).normalForm
    have hrewrites := rewrites_of_rewrite? hd hr
    rw [hm] at hr hrewrites hchildren
    generalize hafter : step.after = after at hrewrites hnormal ih
    cases hrewrites with
    | flatten | idempotent | foldNary | distribute => exact ih rfl hn
    | shortCircuit habsorbing =>
      have hvalue := normalizes_constant hnormal
      rw [absorbing?_or habsorbing, hn] at hvalue
      cases hvalue
      exact Or.inr rfl
    | empty =>
      have hvalue := normalizes_constant hnormal
      rw [hn] at hvalue
      cases hvalue
      exact Or.inl rfl
    | single =>
      rw [hn] at hnormal
      exact truth_of_normalizes_operand hd (hchildren _ List.mem_cons_self) hafter hr hnormal
    | repetition hop => simp at hop

/-- What nested operations are normalized to stands for the total of their leaves too. -/
theorem Normalizes.total_leaves (h : engine.Normalizes levels parent t r steps)
    (hd : engine.registry = .default) (hw : t.WellFormed) (ht : t.Nests op) (env : Assignment) :
    r.Defined (.byPlaces engine.config.wordBits env) op.place ∧
      op.seen (r.worth (.byPlaces engine.config.wordBits env) op.place) =
        op.total (t.leaves.map (worth (.byPlaces engine.config.wordBits env) op.place)) := by
  obtain ⟨hdefined, hworth⟩ :=
    ht.defined_and_seen_worth (.byPlaces engine.config.wordBits env)
  have haccords : Accords (.byPlaces engine.config.wordBits env) t r := h.accords hd hw
  obtain ⟨w, hread, hagrees⟩ := haccords op.place _ hdefined.read
  rw [worth_of_read hread, SemigroupOp.seen_of_agrees hagrees]
  exact ⟨defined_of_read hread, hworth⟩

/-- An integer that is left is one that the operator sees as it is, unless it was there alone. -/
theorem Normalizes.seen_eq (h : engine.Normalizes levels parent t (.int v) steps)
    (hd : engine.registry = .default) (ht : t.Nests op) (hlogical : op ≠ .and)
    (hbare : op = .or → v ≠ 0 → v ≠ 1 → t ≠ .int v) : op.seen v = v := by
  by_cases hop : op = .or
  · subst hop
    have htruth : v = 0 ∨ v = 1 := by
      by_contra hne
      obtain ⟨hzero, hone⟩ := not_or.mp hne
      cases ht' : t with
      | constant value =>
        rw [ht'] at h
        exact hbare rfl hzero hone (ht'.trans (normalizes_constant h).symm)
      | symbol name =>
        rw [ht'] at h
        cases h with
        | rewritten _ _ _ ha => cases ha
      | nary op terms =>
        rw [ht'] at h ht
        obtain ⟨rfl, _⟩ := nests_nary_iff.mp ht
        exact hne (truth_of_normalizes_or hd h rfl rfl)
      | unary | binary | conditional | call =>
        rw [ht'] at ht
        cases ht (none, _) List.mem_cons_self
    rcases htruth with rfl | rfl <;> rfl
  · refine SemigroupOp.seen_of_isLogical_eq_false ?_ v
    cases op with
    | and => exact (hlogical rfl).elim
    | or => exact (hop rfl).elim
    | add | mul | bitAnd | bitOr | bitXor => rfl

/-- Nested operations of `+`, `&`, `|`, `^` or `||` over integers and symbols simplify to the same
if they have the same leaves, in whatever order and however nested. Only under `||` an integer that
stands alone, without an operation, may differ from the truth value that an operation makes of
it. -/
theorem eq_of_perm_leaves (hop : op ≠ .mul) (hlogical : op ≠ .and) (hw : t.WellFormed)
    (hw' : t'.WellFormed) (ht : t.Nests op) (ht' : t'.Nests op) (hleaves : t.leaves.Perm t'.leaves)
    (hbare : op = .or → ∀ v, v ≠ 0 → v ≠ 1 → (t = .int v ↔ t' = .int v))
    (h : simplify t config = .ok r) (h' : simplify t' config = .ok r') : r = r' := by
  by_cases hsame : t = t'
  · subst hsame
    exact Except.ok.inj (h.symm.trans h')
  obtain ⟨_, _, hnorm⟩ := normalizes_of_simplify h
  obtain ⟨_, _, hnorm'⟩ := normalizes_of_simplify h'
  have hseen (v : Int) (hr : r = .int v) : op.seen v = v := by
    subst hr
    refine hnorm.seen_eq rfl ht hlogical fun hor hzero hone hv => hsame ?_
    rw [hv, (hbare hor v hzero hone).mp hv]
  have hseen' (v : Int) (hr : r' = .int v) : op.seen v = v := by
    subst hr
    refine hnorm'.seen_eq rfl ht' hlogical fun hor hzero hone hv => hsame ?_
    rw [hv, (hbare hor v hzero hone).mpr hv]
  have hcombination := hnorm.combination rfl hop hw (combination_of_nests ht)
  have hcombination' := hnorm'.combination rfl hop hw' (combination_of_nests ht')
  have htotal := hnorm.total_leaves rfl hw ht
  have htotal' := hnorm'.total_leaves rfl hw' ht'
  refine hnorm.normalForm.eq_of_values hnorm'.normalForm rfl (hnorm.wellFormed rfl hw)
    (hnorm'.wellFormed rfl hw') hop hlogical hcombination hcombination' (fun env => (htotal env).1)
    (fun env => (htotal' env).1) (fun env => ?_) hseen hseen'
  rw [(htotal env).2, (htotal' env).2]
  exact SemigroupOp.total_perm (hleaves.map _)

/-- `(2 + x) + (x + x)` and `2 + x + x + x` both become `2 + x * 3`. -/
theorem eq_of_perm_leaves_of_sums :
    let x := Expr.symbol "x"
    let t := Expr.nary .add [(.nary .add [(.int 2, 1), (x, 1)], 1), (.nary .add [(x, 2)], 1)]
    let t' := Expr.nary .add [(.int 2, 1), (x, 3)]
    t.WellFormed ∧ t'.WellFormed ∧ t.Nests .add ∧ t'.Nests .add ∧ t.leaves.Perm t'.leaves ∧
      ∃ r r', simplify t {} = .ok r ∧ simplify t' {} = .ok r' ∧ r = r' := by
  have hrun : ∃ r, simplify (.nary .add [(.nary .add [(.int 2, 1), (.symbol "x", 1)], 1),
      (.nary .add [(.symbol "x", 2)], 1)]) {} = .ok r := ⟨_, rfl⟩
  have hrun' : ∃ r, simplify (.nary .add [(.int 2, 1), (.symbol "x", 3)]) {} = .ok r := ⟨_, rfl⟩
  obtain ⟨r, h⟩ := hrun
  obtain ⟨r', h'⟩ := hrun'
  refine ⟨by decide, by decide, by decide, by decide, by decide, r, r', h, h', ?_⟩
  exact eq_of_perm_leaves (by decide) (by decide) (by decide) (by decide)
    (by decide : Expr.Nests .add _) (by decide) (by decide) nofun h h'

/-- The integer five and `||` over five alone have one leaf, but the operation makes one of it. -/
theorem simplify_or_of_bare_integer :
    let t := Expr.int 5
    let t' := Expr.nary .or [(.int 5, 1)]
    t.WellFormed ∧ t'.WellFormed ∧ t.Nests .or ∧ t'.Nests .or ∧ t.leaves.Perm t'.leaves ∧
      simplify t {} = .ok (.int 5) ∧ simplify t' {} = .ok (.int 1) ∧ Expr.int 5 ≠ Expr.int 1 :=
  ⟨by decide, by decide, by decide, by decide, by decide, rfl, rfl, by decide⟩

end Engine
end Symbolic
