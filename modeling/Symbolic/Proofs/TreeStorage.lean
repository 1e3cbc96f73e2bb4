import Symbolic.Proofs.RunsOnTrees
import Symbolic.Proofs.WellStored
import Symbolic.Tree.Storage

/-! Trees whose storage fits are those of well-formed expressions, and no other tree is built or
rewritten from them. -/
namespace Symbolic

open Entries (mapKeys)

namespace Entries

variable {κ : Type} [Ord κ] {entries : Entries κ}

theorem keys_removeOne_sublist (key : κ) (entries : Entries κ) :
    (keys (removeOne key entries)).Sublist (keys entries) := by
  induction entries with
  | nil => exact List.Sublist.refl _
  | cons entry rest ih =>
    obtain ⟨other, n⟩ := entry
    simp only [removeOne]
    split
    · exact List.Sublist.refl _
    · split
      · exact List.Sublist.refl _
      · exact List.sublist_cons_self _ _
    · exact ih.cons_cons other

theorem InOrder.removeOne (h : InOrder entries) (key : κ) :
    InOrder (removeOne key entries) := by
  obtain ⟨hincreasing, hpositive⟩ := h
  constructor
  · have hkeys : (keys entries).Pairwise fun a b => compare a b = .lt :=
      List.pairwise_map.mpr hincreasing
    exact List.pairwise_map.mp (hkeys.sublist (keys_removeOne_sublist key entries))
  · induction entries with
    | nil => exact hpositive
    | cons entry rest ih =>
      obtain ⟨other, n⟩ := entry
      obtain ⟨hn, hrest⟩ := List.forall_mem_cons.mp hpositive
      simp only [Entries.removeOne]
      split
      · exact hpositive
      · split
        · next hmany => exact List.forall_mem_cons.mpr ⟨by omega, hrest⟩
        · exact hrest
      · exact List.forall_mem_cons.mpr ⟨hn, ih (List.pairwise_cons.mp hincreasing).2 hrest⟩

end Entries

namespace Tree

variable {e : Expr} {t : Tree} {op : Operator} {terms : Entries Tree} {children : List Tree}
  {σ ε α β : Type}

/-! ## Storage that fits -/

theorem inOrder_mapKeys_iff {bag : Bag} :
    Entries.InOrder (mapKeys ofExpr bag) ↔ bag.Canonical := by
  simp only [Entries.InOrder, Bag.Canonical, mapKeys, List.pairwise_map, List.forall_mem_map,
    compare_ofExpr_eq]

theorem exists_map_ofExpr (h : ∀ c ∈ children, ∃ e : Expr, e.WellFormed ∧ ofExpr e = c) :
    ∃ es : List Expr, (∀ e ∈ es, e.WellFormed) ∧ es.map ofExpr = children := by
  choose! g hg using h
  refine ⟨children.map g, List.forall_mem_map.mpr fun c hc => (hg c hc).1, ?_⟩
  rw [List.map_map]
  exact (List.map_congr_left fun c hc => (hg c hc).2).trans (List.map_id children)

theorem exists_mapKeys_ofExpr
    (h : ∀ c ∈ Entries.keys terms, ∃ e : Expr, e.WellFormed ∧ ofExpr e = c) :
    ∃ bag : Bag, (∀ e ∈ bag.keys, e.WellFormed) ∧ mapKeys ofExpr bag = terms := by
  choose! g hg using h
  have hterms (entry : Tree × Nat) (hm : entry ∈ terms) := hg entry.1 (List.mem_map_of_mem hm)
  refine ⟨mapKeys g terms, ?_, ?_⟩
  · simp only [Bag.keys, mapKeys, List.map_map]
    exact List.forall_mem_map.mpr fun entry hm => (hterms entry hm).1
  · simp only [mapKeys, List.map_map]
    refine (List.map_congr_left fun entry hm => ?_).trans (List.map_id terms)
    exact Prod.ext (hterms entry hm).2 rfl

theorem storageFits_ofExpr (h : ∀ bag ∈ e.bag?, Bag.Canonical bag) : (ofExpr e).StorageFits := by
  cases e with
  | constant | symbol => trivial
  | nary op terms =>
    rw [ofExpr_nary]
    exact ⟨rfl, inOrder_mapKeys_iff.mpr (h terms rfl)⟩
  | unary | binary | conditional => exact rfl
  | call callee args => exact Nat.succ_pos _

theorem wellFormed_ofExpr (h : e.WellFormed) : (ofExpr e).WellFormed := by
  induction e using Expr.induction with
  | h e ih =>
    obtain ⟨hbag, hc⟩ := Expr.wellFormed_iff.mp h
    refine .node (storageFits_ofExpr hbag) ?_
    rw [children_ofExpr]
    exact List.forall_mem_map.mpr fun c hm => ih c hm (hc c hm)

/-- Beside its storage nothing keeps a tree from being that of an expression. -/
theorem WellFormed.exists_expr (h : t.WellFormed) : ∃ e : Expr, e.WellFormed ∧ ofExpr e = t := by
  induction h with
  | @node t hfits _ ih =>
    cases t with
    | constant value => exact ⟨.constant value, Expr.wellFormed_iff.mpr ⟨nofun, nofun⟩, rfl⟩
    | symbol name => exact ⟨.symbol name, Expr.wellFormed_iff.mpr ⟨nofun, nofun⟩, rfl⟩
    | multiset op terms =>
      obtain ⟨hclass, hcanonical⟩ := hfits
      obtain ⟨bag, hbag, rfl⟩ := exists_mapKeys_ofExpr ih
      cases op with
      | semigroup op =>
        exact ⟨.nary op bag, Expr.wellFormed_nary (inOrder_mapKeys_iff.mp hcanonical) hbag,
          ofExpr_nary op bag⟩
      | unary | binary | conditional | call => cases hclass
    | single op arg =>
      obtain ⟨e, he, rfl⟩ := ih arg List.mem_cons_self
      cases op with
      | unary op => exact ⟨.unary op e, Expr.wellFormed_unary op he, rfl⟩
      | semigroup | binary | conditional | call => cases hfits
    | ordered op children =>
      obtain ⟨es, hes, rfl⟩ := exists_map_ofExpr ih
      cases op with
      | semigroup | unary => exact hfits.elim
      | binary op =>
        have hlength : es.length = 2 := (List.length_map ofExpr).symm.trans hfits
        obtain ⟨lhs, rhs, rfl⟩ := List.length_eq_two.mp hlength
        exact ⟨.binary op lhs rhs, Expr.wellFormed_of_ordered rfl hes, rfl⟩
      | conditional =>
        have hlength : es.length = 3 := (List.length_map ofExpr).symm.trans hfits
        obtain ⟨test, whenTrue, whenFalse, rfl⟩ := List.length_eq_three.mp hlength
        exact ⟨.conditional test whenTrue whenFalse, Expr.wellFormed_of_ordered rfl hes, rfl⟩
      | call =>
        have hlength : 0 < es.length := Nat.lt_of_lt_of_eq hfits (List.length_map ofExpr)
        obtain ⟨callee, args, rfl⟩ := List.exists_cons_of_length_pos hlength
        refine ⟨.call callee args, Expr.wellFormed_of_ordered rfl hes, ?_⟩
        rw [ofExpr, ofArgs_eq, List.map_cons]

/-- Trees whose storage fits are those of well-formed expressions. -/
theorem wellFormed_iff : t.WellFormed ↔ ∃ e : Expr, e.WellFormed ∧ ofExpr e = t := by
  constructor
  · exact WellFormed.exists_expr
  · rintro ⟨e, he, rfl⟩
    exact wellFormed_ofExpr he

/-! ## What is built -/

theorem partition?_eq_filters {bag : Bag} {q : Tree → Nat → Bool}
    {parts : Entries Tree × Entries Tree}
    (hbag : bag.Canonical) (h : Entries.partition? (mapKeys ofExpr bag) q = some parts) :
    parts = (mapKeys ofExpr (bag.filter fun entry => q (ofExpr entry.1) entry.2),
      mapKeys ofExpr (bag.filter fun entry => !q (ofExpr entry.1) entry.2)) := by
  rw [Entries.partition?_mapKeys compare_ofExpr_eq, Option.map_eq_some_iff] at h
  obtain ⟨kept, hkept, rfl⟩ := h
  rw [Entries.partition?_exact hbag hkept, Bag.split_eq_filters]
  rfl

/-- The multisets that are made of well-formed trees are canonical. -/
theorem exists_of_madeOf (h : Entries.MadeOf WellFormed terms) :
    ∃ bag : Bag, bag.Canonical ∧ (∀ e ∈ bag.keys, e.WellFormed) ∧ mapKeys ofExpr bag = terms := by
  induction h with
  | empty => exact ⟨[], Bag.canonical_nil, nofun, rfl⟩
  | @insertMany key count _ entries' hkey _ hi ih =>
    obtain ⟨bag, hbag, hkeys, rfl⟩ := ih
    obtain ⟨e, he, rfl⟩ := hkey.exists_expr
    rw [Entries.insertMany?_mapKeys compare_ofExpr_eq, Option.map_eq_some_iff] at hi
    obtain ⟨inserted, hinserted, rfl⟩ := hi
    obtain rfl := Entries.insertMany?_exact hinserted
    refine ⟨_, Bag.canonical_insertMany e count hbag, fun c hc => ?_, rfl⟩
    rcases List.mem_cons.mp (Bag.keys_insertMany_subset e count bag hc) with rfl | hc
    · exact he
    · exact hkeys c hc
  | @removeOne _ key _ ih =>
    obtain ⟨bag, hbag, hkeys, rfl⟩ := ih
    have hremoved := (inOrder_mapKeys_iff.mpr hbag).removeOne key
    have hleft : ∀ c ∈ Entries.keys (Entries.removeOne key (mapKeys ofExpr bag)),
        ∃ e : Expr, e.WellFormed ∧ ofExpr e = c := by
      intro c hc
      obtain ⟨entry, hm, rfl⟩ := List.mem_map.mp ((Entries.keys_removeOne_sublist key _).subset hc)
      obtain ⟨kept, hkept, rfl⟩ := List.mem_map.mp hm
      exact ⟨kept.1, hkeys _ (List.mem_map_of_mem hkept), rfl⟩
    obtain ⟨removed, hkeys, heq⟩ := exists_mapKeys_ofExpr hleft
    rw [← heq] at hremoved ⊢
    exact ⟨removed, inOrder_mapKeys_iff.mp hremoved, hkeys, rfl⟩
  | @matching q _ parts _ hq ih =>
    obtain ⟨bag, hbag, hkeys, rfl⟩ := ih
    rw [partition?_eq_filters hbag hq]
    exact ⟨_, Bag.canonical_filter _ hbag,
      fun c hc => hkeys c (Bag.keys_filter_subset _ bag hc), rfl⟩
  | @rest q _ parts _ hq ih =>
    obtain ⟨bag, hbag, hkeys, rfl⟩ := ih
    rw [partition?_eq_filters hbag hq]
    exact ⟨_, Bag.canonical_filter _ hbag,
      fun c hc => hkeys c (Bag.keys_filter_subset _ bag hc), rfl⟩

theorem wellFormed_of_follows {attempt : Attempt Tree} {result : Except ExprError Expr}
    (h : Follows attempt (built result)) (hr : ∀ e, result = .ok e → e.WellFormed)
    (ht : attempt = .ok t) : t.WellFormed := by
  subst ht
  cases result with
  | error err => rcases h with h | h <;> cases h
  | ok e =>
    rcases h with h | h
    · obtain rfl := Except.ok.inj h
      exact wellFormed_ofExpr (hr e rfl)
    · cases h

theorem wellFormed_of_operation (hc : ∀ c ∈ children, WellFormed c)
    (h : operation op children = .ok t) : t.WellFormed := by
  obtain ⟨es, hes, rfl⟩ := exists_map_ofExpr fun c hm => (hc c hm).exists_expr
  exact wellFormed_of_follows (follows_operation op es)
    (fun e he => Expr.wellFormed_operation he hes) h

theorem wellFormed_of_ofMultiset (hm : Entries.MadeOf WellFormed terms)
    (h : ofMultiset op terms = .ok t) : t.WellFormed := by
  obtain ⟨bag, hbag, hkeys, rfl⟩ := exists_of_madeOf hm
  refine wellFormed_of_follows (follows_ofMultiset op bag) (fun e he => ?_) h
  cases op with
  | semigroup op =>
    obtain rfl := Except.ok.inj he
    exact Expr.wellFormed_nary hbag hkeys
  | unary | binary | conditional | call => cases he

theorem wellFormed_ordered (h : (ordered op children).StorageFits)
    (hc : ∀ c ∈ children, WellFormed c) : (ordered op children).WellFormed := .node h hc

/-- What is built of a well-formed expression, if it is. -/
theorem wellFormed_of_follows_ok {attempt : Attempt Tree} (h : Follows attempt (.ok (ofExpr e)))
    (he : e.WellFormed) (ht : attempt = .ok t) : t.WellFormed := by
  have hbuilt : Follows attempt (built (.ok e)) := h
  exact wellFormed_of_follows hbuilt (fun _ hr => Except.ok.inj hr ▸ he) ht

section

variable {f : Tree → StateT σ (ExceptT ε Attempt) Tree} {p : Tree → Prop} {s u : σ}

/-- A sequence has a value where its parts do. -/
theorem exists_of_bind_eq_ok {x : StateT σ (ExceptT ε Attempt) α}
    {g : α → StateT σ (ExceptT ε Attempt) β} {b : β} (h : (x >>= g) s = .ok (.ok (b, u))) :
    ∃ a t, x s = .ok (.ok (a, t)) ∧ g a t = .ok (.ok (b, u)) := by
  have hbind : (x >>= g) s = (x s >>= fun part => g part.1 part.2) := rfl
  rw [hbind] at h
  cases hx : x s with
  | error exit =>
    rw [hx] at h
    cases h
  | ok part =>
    rw [hx] at h
    cases part with
    | error err => cases h
    | ok value => exact ⟨value.1, value.2, rfl, h⟩

theorem eq_of_lift_eq_ok {attempt : Attempt α} {a : α}
    (h : (liftM attempt : StateT σ (ExceptT ε Attempt) α) s = .ok (.ok (a, u))) :
    attempt = .ok a := by
  cases attempt with
  | error exit => cases h
  | ok value =>
    cases h
    rfl

/-- Images with a property, entered one after the other. -/
theorem madeOf_of_mapTerms {mapped : Entries Tree} (hf : ∀ c ∈ Entries.keys terms,
      ∀ s image u, f c s = .ok (.ok (image, u)) → p image) {acc : Entries Tree}
    (hacc : Entries.MadeOf p acc) (h : mapTerms f terms acc s = .ok (.ok (mapped, u))) :
    Entries.MadeOf p mapped := by
  induction terms generalizing acc s with
  | nil =>
    cases h
    exact hacc
  | cons entry rest ih =>
    obtain ⟨image, s₁, himage, hmore⟩ := exists_of_bind_eq_ok h
    obtain ⟨inserted, s₂, hinserted, hrest⟩ := exists_of_bind_eq_ok hmore
    have hinsert := Attempt.orHalt_eq_ok_iff.mp (eq_of_lift_eq_ok hinserted)
    have hp : p image := hf entry.1 List.mem_cons_self _ _ _ himage
    exact ih (fun c hc => hf c (List.mem_cons_of_mem _ hc)) (.insertMany hp hacc hinsert) hrest

theorem forall_of_mapM {images : List Tree} (hf : ∀ c ∈ children,
      ∀ s image u, f c s = .ok (.ok (image, u)) → p image)
    (h : children.mapM f s = .ok (.ok (images, u))) :
    images.length = children.length ∧ ∀ c ∈ images, p c := by
  induction children generalizing images s with
  | nil =>
    cases h
    exact ⟨rfl, nofun⟩
  | cons child rest ih =>
    rw [List.mapM_cons] at h
    obtain ⟨image, s₁, himage, h⟩ := exists_of_bind_eq_ok h
    obtain ⟨later, s₂, hlater, h⟩ := exists_of_bind_eq_ok h
    cases h
    obtain ⟨hlength, hlater⟩ := ih (fun c hc => hf c (List.mem_cons_of_mem _ hc)) hlater
    refine ⟨congrArg Nat.succ hlength, List.forall_mem_cons.mpr ⟨?_, hlater⟩⟩
    exact hf child List.mem_cons_self _ _ _ himage

/-- Over well-formed images the operation is well formed, however it keeps its children. -/
theorem wellFormed_of_mapChildren {t' : Tree} (ht : t.WellFormed) (hf : ∀ c ∈ t.children,
      ∀ s image u, f c s = .ok (.ok (image, u)) → WellFormed image)
    (h : t.mapChildren f s = .ok (.ok (t', u))) : t'.WellFormed := by
  obtain ⟨hfits, _⟩ := ht
  cases t with
  | constant | symbol =>
    cases h
    exact .node trivial nofun
  | multiset op terms =>
    obtain ⟨mapped, s₁, hmapped, h⟩ := exists_of_bind_eq_ok h
    cases h
    have hmade := madeOf_of_mapTerms hf .empty hmapped
    have hbuilt : ofMultiset op mapped = .ok (.multiset op mapped) := by
      cases op with
      | semigroup op => rfl
      | unary | binary | conditional | call => cases hfits.1
    exact wellFormed_of_ofMultiset hmade hbuilt
  | single op arg =>
    obtain ⟨image, s₁, himage, h⟩ := exists_of_bind_eq_ok h
    cases h
    have himage : image.WellFormed := hf arg List.mem_cons_self _ _ _ himage
    exact .node hfits fun c hc => List.mem_singleton.mp hc ▸ himage
  | ordered op children =>
    obtain ⟨images, s₁, himages, h⟩ := exists_of_bind_eq_ok h
    cases h
    obtain ⟨hlength, himages⟩ := forall_of_mapM hf himages
    have hfits : StorageFits (.ordered op images) := by
      simp only [StorageFits, hlength]
      exact hfits
    exact wellFormed_ordered hfits himages

end

theorem BuiltFrom.wellFormed (h : BuiltFrom WellFormed t) : t.WellFormed := by
  cases h with
  | constant | symbol => exact .node trivial nofun
  | operation hc h => exact wellFormed_of_operation hc h
  | ofMultiset hm h => exact wellFormed_of_ofMultiset hm h
  | pair hl hr h =>
    obtain ⟨a, ha, rfl⟩ := hl.exists_expr
    obtain ⟨b, hb, rfl⟩ := hr.exists_expr
    exact wellFormed_of_follows_ok (follows_pair _ a b) (Expr.wellFormed_pair _ ha hb) h
  | neg ha h =>
    obtain ⟨a, hw, rfl⟩ := ha.exists_expr
    exact wellFormed_of_follows_ok (follows_neg a) (Expr.wellFormed_neg hw) h
  | sub hl hr h =>
    obtain ⟨a, ha, rfl⟩ := hl.exists_expr
    obtain ⟨b, hb, rfl⟩ := hr.exists_expr
    exact wellFormed_of_follows_ok (follows_sub a b)
      (Expr.wellFormed_pair .add ha (Expr.wellFormed_neg hb)) h
  | shl hl hr h =>
    obtain ⟨a, ha, rfl⟩ := hl.exists_expr
    obtain ⟨b, hb, rfl⟩ := hr.exists_expr
    exact wellFormed_of_follows_ok (follows_shl a b)
      (Expr.wellFormed_pair .mul ha (Expr.wellFormed_binary .pow (Expr.wellFormed_int 2) hb)) h
  | unary op ha => exact .node rfl fun c hc => List.mem_singleton.mp hc ▸ ha
  | binary op hl hr => exact wellFormed_ordered rfl (by simpa using ⟨hl, hr⟩)
  | cmpGt hl hr => exact wellFormed_ordered rfl (by simpa using ⟨hr, hl⟩)
  | cmpGe hl hr => exact wellFormed_ordered rfl (by simpa using ⟨hr, hl⟩)
  | conditional h ht hf => exact wellFormed_ordered rfl (by simpa using ⟨h, ht, hf⟩)
  | call h ha => exact wellFormed_ordered (Nat.succ_pos _) (List.forall_mem_cons.mpr ⟨h, ha⟩)
  | mapChildren ht hf h => exact wellFormed_of_mapChildren ht hf h

/-! ## The default rules -/

theorem Failure.of_eq_construction_iff {err : SimplifyError} {cause : ExprError} :
    Failure.of err = .construction cause ↔ err = .construction cause := by
  cases err <;> simp [Failure.of]

theorem Failure.of_eq_undefinedOperation_iff {err : SimplifyError} {cause : NumericError} :
    Failure.of err = .undefinedOperation op cause ↔ err = .undefinedOperation op cause := by
  cases err <;> simp [Failure.of]

namespace Rules

variable {rule : Rule} {ctx : Context}

theorem forall₂_refines_all : List.Forall₂ Rule.Refines all Symbolic.Rules.all :=
  .cons flatten_refines <| .cons idempotent_refines <| .cons involution_refines <|
  .cons foldUnary_refines <| .cons foldBinary_refines <| .cons shortCircuit_refines <|
  .cons foldNary_refines <| .cons naryBase_refines <| .cons constantCondition_refines <|
  .cons selfCompare_refines <| .cons negatedCompare_refines <| .cons subtractCompare_refines <|
  .cons compareZero_refines <| .cons repetition_refines <| .cons distribute_refines .nil

theorem exists_refined (hm : rule ∈ all) : ∃ rule' ∈ Symbolic.Rules.all, rule.Refines rule' := by
  obtain ⟨hlength, hrefines⟩ := List.forall₂_iff_get.mp forall₂_refines_all
  obtain ⟨i, hi, rfl⟩ := List.getElem_of_mem hm
  have hi' : i < Symbolic.Rules.all.length := hlength ▸ hi
  exact ⟨_, List.getElem_mem hi', hrefines i hi hi'⟩

/-- A default rule that applies to a well-formed node gives a well-formed tree, or finds an
operation undefined, unless a multiplicity is beyond a machine word. -/
theorem rewrite_of_mem_all (hm : rule ∈ all) (ho : t.op? = some op)
    (hc : rule.trigger.covers op = true) (ha : rule.applies ctx t = .ok true) (hw : t.WellFormed) :
    (∃ t', rule.rewrite ctx t = .ok t' ∧ t'.WellFormed) ∨
    (∃ op' cause, rule.rewrite ctx t = .error (.failed (.undefinedOperation op' cause)) ∧
      ∀ op'', cause ≠ .notFoldable op'') ∨
    rule.rewrite ctx t = .error (.halted .multiplicity) := by
  obtain ⟨e, he, rfl⟩ := hw.exists_expr
  obtain ⟨rule', hm', hrefines⟩ := exists_refined hm
  rw [op?_ofExpr] at ho
  rw [hrefines.trigger_eq] at hc
  have ha' : rule'.applies ctx e = true := by
    have happlies := hrefines.applies ctx he
    rw [ha] at happlies
    rcases happlies with h | h
    · exact (Except.ok.inj h).symm
    · cases h
  rcases hrefines.rewrite ctx he with h | h
  · cases hr : rule'.rewrite ctx e with
    | ok e' =>
      rw [hr] at h
      exact Or.inl ⟨_, h, wellFormed_ofExpr
        (Symbolic.Rules.wellFormed_of_mem_all hm' ho hc ha' he hr)⟩
    | error err =>
      rw [hr] at h
      obtain ⟨op', cause, rfl, hcause⟩ :=
        (Symbolic.Rules.raises_of_mem_all hm' ho hc ha' hr).exists_cause
      exact Or.inr (Or.inl ⟨op', cause, h, hcause⟩)
  · exact Or.inr (Or.inr h)

end Rules
end Tree

namespace Machine

open Symbolic.Tree (ofExpr)

/-- The default rules on trees follow the default registry. -/
theorem follows_default (config : Config) :
    Follows ⟨Tree.Rules.all, config⟩ ⟨.default, config, true⟩ where
  config_eq := rfl
  recalls := rfl
  indexed := Registry.indexed_registerAll Registry.indexed_empty _
  refines := Registry.rules_ofRules Rules.all ▸ Tree.Rules.forall₂_refines_all
  buildsWellFormed parent op e e' hw ho rule hm ha hr := by
    have hcandidate : rule ∈ Registry.default.candidates op := hm
    rw [Registry.default, Registry.candidates_ofRules] at hcandidate
    obtain ⟨hall, hcovers⟩ := List.mem_filter.mp hcandidate
    exact Rules.wellFormed_of_mem_all hall ho hcovers ha hw hr

/-- Whatever is built out of well-formed trees is well formed; each default rule keeps a node well
formed or finds an operation undefined; and so a run by the default rules never fails by an arity or
by an operator that cannot be evaluated, and gives well-formed trees only. Nothing but a machine
word or a memory that is too small makes it halt. -/
theorem wellFormed_throughout (config : Config) :
    (∀ t, Tree.BuiltFrom Tree.WellFormed t → t.WellFormed) ∧
    (∀ rule ∈ Tree.Rules.all, ∀ (ctx : Context) (op : Operator) (t : Tree), t.op? = some op →
      rule.trigger.covers op = true → rule.applies ctx t = .ok true → t.WellFormed →
        (∃ t', rule.rewrite ctx t = .ok t' ∧ t'.WellFormed) ∨
        (∃ op' cause, rule.rewrite ctx t = .error (.failed (.undefinedOperation op' cause)) ∧
          ∀ op'', cause ≠ .notFoldable op'') ∨
        rule.rewrite ctx t = .error (.halted .multiplicity)) ∧
    ∀ (rounds : Nat) (t : Tree), config.maxSteps < rounds → t.WellFormed →
      ∃ result, simplify ⟨Tree.Rules.all, config⟩ rounds t = some result ∧
        (∀ cause, result ≠ .error (.failed (.construction cause))) ∧
        (∀ op op', result ≠ .error (.failed (.undefinedOperation op (.notFoldable op')))) ∧
        (∀ cause, result = .error (.halted cause) → Halts ⟨Tree.Rules.all, config⟩ cause) ∧
        ∀ r statistics, result = .ok (r, statistics) → r.WellFormed := by
  refine ⟨fun t => Tree.BuiltFrom.wellFormed, ?_, fun rounds t hrounds hw => ?_⟩
  · exact fun rule hm ctx op t => Tree.Rules.rewrite_of_mem_all hm
  obtain ⟨e, he, rfl⟩ := hw.exists_expr
  rcases (follows_default config).simplify he hrounds with
    ⟨outcome, statistics, hrun, _, h⟩ | ⟨err, hrun, h⟩ | ⟨cause, hcause, h⟩
  · refine ⟨_, h, nofun, nofun, nofun, ?_⟩
    rintro r _ ⟨⟩
    exact Tree.wellFormed_ofExpr (Engine.wellFormed_of_run he hrun)
  · refine ⟨_, h, fun cause hc => ?_, fun op op' hc => ?_, nofun, nofun⟩
    · have herr := Tree.Failure.of_eq_construction_iff.mp (Exit.failed.inj (Except.error.inj hc))
      exact Engine.ne_construction_of_run rfl hrun cause herr
    · have herr :=
        Tree.Failure.of_eq_undefinedOperation_iff.mp (Exit.failed.inj (Except.error.inj hc))
      exact Engine.ne_notFoldable_of_run rfl hrun op op' herr
  · refine ⟨_, h, nofun, nofun, ?_, nofun⟩
    rintro _ ⟨⟩
    exact hcause

/-- `x << 3` is the product `x * 2 ** 3`, whose power is folded; `1 / 0` is offered to a rule that
finds it undefined. -/
theorem wellFormed_throughout_of_shift :
    let shifted : Tree := .multiset (.semigroup .mul)
      [(.symbol "x", 1), (Tree.binary .pow (Tree.int 2) (Tree.int 3), 1)]
    Tree.shl (.symbol "x") (Tree.int 3) = .ok shifted ∧ shifted.WellFormed ∧
      (∃ op cause, Tree.Rules.foldBinary.rewrite ⟨none, {}⟩
          (Tree.binary .trueDiv (Tree.int 1) (Tree.int 0)) =
        .error (.failed (.undefinedOperation op cause))) ∧
      ∃ r statistics, simplify ⟨Tree.Rules.all, { maxSteps := 8 }⟩ 9 shifted =
        some (.ok (r, statistics)) ∧ r.WellFormed := by
  intro shifted
  obtain ⟨hbuilt, hrules, hruns⟩ := wellFormed_throughout { maxSteps := 8 }
  have hshl : Tree.shl (.symbol "x") (Tree.int 3) = .ok shifted := by decide +kernel
  have hshifted : shifted.WellFormed :=
    hbuilt shifted (.shl (hbuilt _ (.symbol "x")) (hbuilt _ (.constant (.int 3))) hshl)
  have hdivided : (Tree.binary .trueDiv (Tree.int 1) (Tree.int 0)).WellFormed :=
    hbuilt _ (.binary .trueDiv (hbuilt _ (.constant (.int 1))) (hbuilt _ (.constant (.int 0))))
  have hfold := hrules Tree.Rules.foldBinary (by simp [Tree.Rules.all, Tree.Rules.foldingFamily])
    ⟨none, {}⟩ (.binary .trueDiv) _ rfl rfl (by decide +kernel) hdivided
  obtain ⟨result, hresult, _, _, _, hwell⟩ := hruns 9 shifted (by decide) hshifted
  obtain ⟨r, statistics, hok⟩ : ∃ r statistics,
      simplify ⟨Tree.Rules.all, { maxSteps := 8 }⟩ 9 shifted = some (.ok (r, statistics)) :=
    ⟨_, _, rfl⟩
  refine ⟨hshl, hshifted, ?_, r, statistics, hok, ?_⟩
  · rcases hfold with ⟨_, h, _⟩ | ⟨op, cause, h, _⟩ | h
    · cases h
    · exact ⟨op, cause, h⟩
    · cases h
  · exact hwell r statistics (Option.some.inj (hresult.symm.trans hok))

end Machine
end Symbolic
