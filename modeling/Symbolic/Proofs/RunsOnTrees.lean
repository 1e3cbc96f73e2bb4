import Symbolic.Proofs.RewritesOnTrees
import Symbolic.Proofs.Sequencing

/-! Runs on trees do what runs on expressions do: they take the same rewrites to the same results
and failures, unless they halt. -/
namespace Symbolic.Machine

open Entries (mapKeys)
open Symbolic.Tree (ofExpr)

/-- Two states in the same place of the same pass, which began with `before` rewrites. -/
structure Tracks (machine : Machine) (passes before : Nat) (s : State) (s' : Symbolic.State) :
    Prop where
  shows : machine.Shows s.toProgress s'.trace
  passes_eq : s.statistics.passes = passes
  before_le : before ≤ s'.trace.length
  fired_iff : s.fired = true ↔ before < s'.trace.length
  spent : s'.trace.length + s'.remaining = machine.config.maxSteps
  lookup_eq : ∀ parent e, s.memo.lookup (parent, ofExpr e) = (s'.memo[(parent, e)]?).map ofExpr
  wellFormed : ∀ (occurrence : Occurrence) (n : Expr), s'.memo[occurrence]? = some n → n.WellFormed

/-- Two states in the same place, and no fewer rewrites than `least`, with related values. -/
structure Leaves (machine : Machine) (passes before least : Nat) {α β : Type}
    (related : α → β → Prop) (a : α) (s : State) (b : β) (s' : Symbolic.State) : Prop where
  tracks : machine.Tracks passes before s s'
  related : related a b
  least_le : least ≤ s'.trace.length

/-- A part of a run on trees ends as a part on expressions does, or halts for a cause. -/
inductive EndsLike (machine : Machine) {α β : Type}
    (post : α → State → β → Symbolic.State → Prop) :
    Option (Except Exit α × State) → Ended β → Prop
  | ok {a : α} {s : State} {b : β} {s' : Symbolic.State} (h : post a s b s') :
      EndsLike machine post (some (.ok a, s)) (.ok b, s')
  | failed {err : SimplifyError} {s : State} {s' : Symbolic.State} :
      EndsLike machine post (some (.error (.failed (.of err)), s)) (.error err, s')
  | halted {cause : Halt} {s : State} {part : Ended β} (h : Exit.Allowed machine (.halted cause)) :
      EndsLike machine post (some (.error (.halted cause), s)) part

/-- The tree of a well-formed expression. -/
def Depicts (t : Tree) (e : Expr) : Prop := t = ofExpr e ∧ e.WellFormed

/-- What becomes of children, and whether any of them becomes another. -/
structure Images (es : List Expr) (before : Bool) (changed : Bool) (images : List Expr) : Prop where
  changed_eq : changed = (before || decide (images ≠ es))
  length_eq : images.length = es.length
  wellFormed : ∀ c ∈ images, c.WellFormed

variable {machine : Machine} {engine : Engine} {passes before least : Nat} {s : State}
  {s' : Symbolic.State} {α β α' β' : Type} {post : α → State → β → Symbolic.State → Prop}
  {post' : α' → State → β' → Symbolic.State → Prop} {x : Run α} {f : α → Run α'} {part : Ended β}
  {part' : Ended β'} {parent : Option Operator} {e e' : Expr} {step : Step} {rounds : Nat}
  {normalize : Option Operator → Tree → Run Tree}
  {normalize' : Option Operator → Expr → Symbolic.State → Ended Expr}

namespace EndsLike

/-- One part after the other. -/
theorem bind {next : β → Symbolic.State → Ended β'} (h : machine.EndsLike post (x s) part)
    (hnext : ∀ a s b s', post a s b s' → machine.EndsLike post' (f a s) (next b s')) :
    machine.EndsLike post' ((x >>= f) s) (part.andThen next) := by
  generalize hx : x s = ended at h
  cases h with
  | ok h =>
    rw [bind_of_ok hx, Ended.andThen_ok]
    exact hnext _ _ _ _ h
  | failed =>
    rw [bind_of_error hx, Ended.andThen_error]
    exact .failed
  | halted hcause =>
    rw [bind_of_error hx]
    exact .halted hcause

/-- A part that only the run on trees goes on with. -/
theorem after {post' : α' → State → β → Symbolic.State → Prop}
    (h : machine.EndsLike post (x s) part)
    (hf : ∀ a s b s', post a s b s' → machine.EndsLike post' (f a s) (.ok b, s')) :
    machine.EndsLike post' ((x >>= f) s) part := by
  generalize hx : x s = ended at h
  cases h with
  | ok h =>
    rw [bind_of_ok hx]
    exact hf _ _ _ _ h
  | failed =>
    rw [bind_of_error hx]
    exact .failed
  | halted hcause =>
    rw [bind_of_error hx]
    exact .halted hcause

/-- A part that only the run on expressions goes on with. -/
theorem andThen {post' : α → State → β' → Symbolic.State → Prop} {g : β → β'}
    {ended : Option (Except Exit α × State)} (h : machine.EndsLike post ended part)
    (hpost : ∀ a s b s', post a s b s' → post' a s (g b) s') :
    machine.EndsLike post' ended (part.andThen fun b s => (.ok (g b), s)) := by
  cases h with
  | ok h => exact .ok (hpost _ _ _ _ h)
  | failed => exact .failed
  | halted hcause => exact .halted hcause

/-- An attempt, and what comes after it. -/
theorem lift_ok {attempt : Attempt α} {a : α} (h : Symbolic.Follows attempt (.ok a))
    (hnext : machine.EndsLike post' (f a s) part') :
    machine.EndsLike post' ((liftM attempt >>= f) s) part' := by
  rcases h with rfl | rfl
  · exact hnext
  · exact .halted Exit.allowed_multiplicity

theorem lift_failed {attempt : Attempt α} {err : SimplifyError}
    (h : Symbolic.Follows attempt (.error (.of err))) :
    machine.EndsLike post' ((liftM attempt >>= f) s) (.error err, s') := by
  rcases h with rfl | rfl
  · exact .failed
  · exact .halted Exit.allowed_multiplicity

end EndsLike

theorem EndsLike.of_le {related : α → β → Prop} {more : Nat}
    {ended : Option (Except Exit α × State)}
    (h : machine.EndsLike (machine.Leaves passes before more related) ended part)
    (hle : least ≤ more) :
    machine.EndsLike (machine.Leaves passes before least related) ended part := by
  cases h with
  | ok h => exact .ok ⟨h.tracks, h.related, Nat.le_trans hle h.least_le⟩
  | failed => exact .failed
  | halted hcause => exact .halted hcause

/-! ## The record -/

/-- The step of a run: the record of a rewrite. -/
theorem record_endsLike (h : machine.Follows engine) (ht : machine.Tracks passes before s s') :
    machine.EndsLike (machine.Leaves passes before (s'.trace.length + 1) fun _ _ => True)
      (machine.record (.of step) s) (engine.record step s') := by
  have hspent := ht.spent
  cases hafter : s.toProgress.after? machine.config.traceLength (.of step) with
  | none =>
    have hcount := count?_eq_none ht.shows.sum_ruleHits (Option.map_eq_none_iff.mp hafter)
    have hsteps := ht.shows.steps_eq
    rw [record_of_none hafter]
    exact .halted (Exit.allowed_counter (by omega))
  | some progress =>
    obtain ⟨hshows, hfired, hpasses⟩ := ht.shows.after hafter
    rw [record_eq hafter, hshows.steps_eq, hshows.recent_eq, rtake_reverse_map, List.length_cons,
      Engine.record]
    cases hremaining : s'.remaining with
    | zero =>
      have hfailure : Tree.Failure.nonTerminating machine.config.maxSteps
          (((step :: s'.trace).take machine.config.traceLength).reverse.map .of) =
            .of (engine.nonTerminating (step :: s'.trace)) := by
        rw [h.config_eq]
        rfl
      rw [if_pos (by omega), hfailure]
      exact .failed
    | succ remaining =>
      rw [if_neg (by omega)]
      refine .ok ⟨⟨hshows, hpasses.trans ht.passes_eq, ?_, ?_, ?_, ht.lookup_eq, ht.wellFormed⟩,
        trivial, Nat.le_refl _⟩
      · exact Nat.le_succ_of_le ht.before_le
      · exact iff_of_true hfired (Nat.lt_succ_of_le ht.before_le)
      · simp only [List.length_cons]
        omega

/-! ## The memo -/

/-- The list of normal forms is searched as the tree of them is. -/
theorem lookup_cons_insert {entries : List ((Option Operator × Tree) × Tree)} {memo : Memo}
    (h : ∀ above c, entries.lookup (above, ofExpr c) = (memo[(above, c)]?).map ofExpr)
    (parent above : Option Operator) (e n c : Expr) :
    (((parent, ofExpr e), ofExpr n) :: entries).lookup (above, ofExpr c) =
      ((memo.insert (parent, e) n)[(above, c)]?).map ofExpr := by
  rw [Std.TreeMap.getElem?_insert]
  by_cases hkey : (parent, e) = (above, c)
  · obtain ⟨rfl, rfl⟩ := Prod.mk.inj hkey
    rw [List.lookup_cons_self, if_pos Std.ReflCmp.compare_self]
    rfl
  · have hother : ((above, ofExpr c) == (parent, ofExpr e)) = false := by
      rw [beq_eq_false_iff_ne]
      intro heq
      obtain ⟨rfl, hc⟩ := Prod.mk.inj heq
      exact hkey (by rw [Tree.ofExpr_injective hc])
    rw [List.lookup_cons, hother, if_neg fun hc => hkey (Std.LawfulEqCmp.eq_of_compare hc)]
    exact h above c

theorem tracks_remember (ht : machine.Tracks passes before s s') {n : Expr} (hn : n.WellFormed)
    (parent : Option Operator) (e : Expr) :
    machine.Tracks passes before (remember parent (ofExpr e) (ofExpr n) s)
      (Engine.remember parent e n s') where
  shows := ht.shows
  passes_eq := ht.passes_eq
  before_le := ht.before_le
  fired_iff := ht.fired_iff
  spent := ht.spent
  lookup_eq above c :=
    lookup_cons_insert (fun above c => lookup_cons_insert ht.lookup_eq parent above n n c)
      parent above e n c
  wellFormed occurrence m hm := by
    simp only [Engine.remember, Std.TreeMap.getElem?_insert] at hm
    split at hm
    · exact Option.some.inj hm ▸ hn
    · split at hm
      · exact Option.some.inj hm ▸ hn
      · exact ht.wellFormed occurrence m hm

/-! ## The children -/

/-- Two ways to normalize that do the same, one on trees and the other on expressions. -/
def NormalizesLike (machine : Machine) (passes before : Nat)
    (normalize : Option Operator → Tree → Run Tree)
    (normalize' : Option Operator → Expr → Symbolic.State → Ended Expr) : Prop :=
  ∀ parent e s s', e.WellFormed → machine.Tracks passes before s s' →
    machine.EndsLike (machine.Leaves passes before s'.trace.length Depicts)
      (normalize parent (ofExpr e) s) (normalize' parent e s')

theorem Images.cons {es images : List Expr} {image : Expr} {b b₁ b₂ : Bool}
    (h : Images [e] b b₁ [image]) (hrest : Images es b₁ b₂ images) :
    Images (e :: es) b b₂ (image :: images) where
  changed_eq := by
    rw [hrest.changed_eq, h.changed_eq, Bool.or_assoc, ← Bool.decide_or]
    congr 2
    simp only [ne_eq, List.cons.injEq, and_true, not_and_or]
  length_eq := congrArg Nat.succ hrest.length_eq
  wellFormed c hc := by
    rcases List.mem_cons.mp hc with rfl | hc
    · exact h.wellFormed c List.mem_cons_self
    · exact hrest.wellFormed c hc

theorem replace_eq (normalize : Tree → Run Tree) (t : Tree) (b : Bool) :
    replace normalize t b = normalize t >>= fun next => pure (next, b || decide (next ≠ t)) := by
  have hreplace : replace normalize t b =
      (normalize t >>= fun next => pure (next, b)) >>= fun image =>
        pure (image.1, image.2 || decide (image.1 ≠ t)) := rfl
  rw [hreplace, bind_assoc]
  rfl

theorem mapTerms_cons (f : Tree → StateT Bool Run Tree) (entry : Tree × Nat)
    (rest mapped : Entries Tree) (b : Bool) :
    Tree.mapTerms f (entry :: rest) mapped b =
      f entry.1 b >>= fun image =>
        liftM (counted (Entries.insertMany? image.1 entry.2 mapped)) >>= fun mapped =>
          Tree.mapTerms f rest mapped image.2 := by
  have hcons : Tree.mapTerms f (entry :: rest) mapped b =
      f entry.1 b >>= fun image =>
        (liftM (counted (Entries.insertMany? image.1 entry.2 mapped)) >>= fun mapped =>
          pure (mapped, image.2)) >>= fun mapped => Tree.mapTerms f rest mapped.1 mapped.2 := rfl
  simp only [hcons, bind_assoc, pure_bind]

section

variable (hn : machine.NormalizesLike passes before normalize normalize')
include hn

theorem replace_endsLike (he : e.WellFormed) (ht : machine.Tracks passes before s s') (b : Bool) :
    machine.EndsLike (machine.Leaves passes before s'.trace.length fun image e' =>
        image.1 = ofExpr e' ∧ Images [e] b image.2 [e'])
      (replace (normalize parent) (ofExpr e) b s) (normalize' parent e s') := by
  rw [replace_eq]
  refine (hn parent e s s' he ht).after ?_
  rintro t s₁ e' s₁' ⟨ht₁, ⟨rfl, he'⟩, hle⟩
  refine .ok ⟨ht₁, ⟨rfl, ?_, rfl, ?_⟩, hle⟩
  · simp [Tree.ofExpr_inj]
  · intro c hc
    exact List.mem_singleton.mp hc ▸ he'

/-- Children in places, one after the other. -/
theorem mapM_endsLike {es : List Expr} (hes : ∀ c ∈ es, c.WellFormed)
    (ht : machine.Tracks passes before s s') (b : Bool) :
    machine.EndsLike (machine.Leaves passes before s'.trace.length fun image images =>
        image.1 = images.map ofExpr ∧ Images es b image.2 images)
      ((es.map ofExpr).mapM (replace (normalize parent)) b s)
      (Engine.normalizeList (normalize' parent) es s') := by
  induction es generalizing b s s' with
  | nil => exact .ok ⟨ht, ⟨rfl, by simp, rfl, by simp⟩, Nat.le_refl _⟩
  | cons e rest ih =>
    have hrest := fun c hc => hes c (List.mem_cons_of_mem e hc)
    rw [List.map_cons, List.mapM_cons, Engine.normalizeList_cons]
    refine (replace_endsLike hn (hes e List.mem_cons_self) ht b).bind ?_
    rintro ⟨_, b₁⟩ s₁ image s₁' ⟨ht₁, ⟨rfl, himage⟩, hle⟩
    refine (ih hrest ht₁ b₁).bind ?_
    rintro ⟨_, b₂⟩ s₂ images s₂' ⟨ht₂, ⟨rfl, himages⟩, hle'⟩
    exact .ok ⟨ht₂, ⟨rfl, himage.cons himages⟩, Nat.le_trans hle hle'⟩

/-- The keys of a multiset, one after the other, each image entered where it is found. -/
theorem mapTerms_endsLike {terms : Bag} (hterms : ∀ c ∈ Bag.keys terms, c.WellFormed) (acc : Bag)
    (ht : machine.Tracks passes before s s') (b : Bool) :
    machine.EndsLike (machine.Leaves passes before s'.trace.length fun image images =>
        image.1 = mapKeys ofExpr (Bag.merge acc (images.zip (terms.map Prod.snd))) ∧
          Images (Bag.keys terms) b image.2 images)
      (Tree.mapTerms (replace (normalize parent)) (mapKeys ofExpr terms) (mapKeys ofExpr acc) b s)
      (Engine.normalizeList (normalize' parent) (Bag.keys terms) s') := by
  induction terms generalizing acc b s s' with
  | nil => exact .ok ⟨ht, ⟨rfl, by simp [Bag.keys], rfl, by simp⟩, Nat.le_refl _⟩
  | cons entry rest ih =>
    have hrest := fun c hc => hterms c (List.mem_cons_of_mem entry.1 hc)
    have hkeys : Bag.keys (entry :: rest) = entry.1 :: Bag.keys rest := rfl
    rw [hkeys, Engine.normalizeList_cons, Entries.mapKeys_cons, mapTerms_cons]
    refine (replace_endsLike hn (hterms entry.1 List.mem_cons_self) ht b).bind ?_
    rintro ⟨_, b₁⟩ s₁ image s₁' ⟨ht₁, ⟨rfl, himage⟩, hle⟩
    refine .lift_ok (Tree.follows_insertMany image entry.2 acc) ?_
    refine (ih hrest _ ht₁ b₁).andThen ?_
    rintro ⟨_, b₂⟩ s₂ images s₂' ⟨ht₂, ⟨rfl, himages⟩, hle'⟩
    exact ⟨ht₂, ⟨rfl, himage.cons himages⟩, Nat.le_trans hle hle'⟩

/-- A node that keeps its children in places. -/
theorem mapOrdered_endsLike {op : Operator} (hchildren : ∀ c ∈ e.children, c.WellFormed)
    (ht : machine.Tracks passes before s s')
    (he : ofExpr e = .ordered op (e.children.map ofExpr))
    (hrebuilt : ∀ images : List Expr, images.length = e.children.length →
      ofExpr (e.withChildren images) = .ordered op (images.map ofExpr)) :
    machine.EndsLike (machine.Leaves passes before s'.trace.length fun image images =>
        image.1 = ofExpr (e.withChildren images) ∧ Images e.children false image.2 images)
      ((ofExpr e).mapChildren (replace (normalize parent)) false s)
      (Engine.normalizeList (normalize' parent) e.children s') := by
  rw [he]
  refine (mapM_endsLike hn hchildren ht false).after ?_
  rintro ⟨_, b⟩ s₁ images s₁' ⟨ht₁, ⟨rfl, himages⟩, hle⟩
  exact .ok ⟨ht₁, ⟨(hrebuilt images himages.length_eq).symm, himages⟩, hle⟩

/-- The children of a node, whichever way it keeps them. -/
theorem mapChildren_endsLike (he : e.WellFormed) (ht : machine.Tracks passes before s s') :
    machine.EndsLike (machine.Leaves passes before s'.trace.length fun image images =>
        image.1 = ofExpr (e.withChildren images) ∧ Images e.children false image.2 images)
      ((ofExpr e).mapChildren (replace (normalize parent)) false s)
      (Engine.normalizeList (normalize' parent) e.children s') := by
  have hchildren : ∀ c ∈ e.children, c.WellFormed := fun c hc => he.of_mem_children hc
  cases e with
  | constant | symbol => exact .ok ⟨ht, ⟨rfl, rfl, rfl, by simp⟩, Nat.le_refl _⟩
  | nary op terms =>
    rw [Tree.ofExpr_nary]
    refine (mapTerms_endsLike hn hchildren [] ht false).after ?_
    rintro ⟨_, b⟩ s₁ images s₁' ⟨ht₁, ⟨rfl, himages⟩, hle⟩
    refine .ok ⟨ht₁, ⟨?_, himages⟩, hle⟩
    rw [Expr.withChildren, Tree.ofExpr_nary]
    rfl
  | unary op arg =>
    have harg : arg.WellFormed := hchildren arg List.mem_cons_self
    have hchild : (Expr.unary op arg).children = [arg] := rfl
    rw [hchild, Engine.normalizeList_cons]
    refine (replace_endsLike hn harg ht false).bind ?_
    rintro ⟨_, b⟩ s₁ image s₁' ⟨ht₁, ⟨rfl, himages⟩, hle⟩
    exact .ok ⟨ht₁, ⟨rfl, himages⟩, hle⟩
  | binary op lhs rhs =>
    refine mapOrdered_endsLike hn hchildren ht rfl fun images hlength => ?_
    obtain ⟨lhs', rhs', rfl⟩ := List.length_eq_two.mp hlength
    rfl
  | conditional test whenTrue whenFalse =>
    refine mapOrdered_endsLike hn hchildren ht rfl fun images hlength => ?_
    obtain ⟨test', whenTrue', whenFalse', rfl⟩ := List.length_eq_three.mp hlength
    rfl
  | call callee args =>
    have hcall (callee : Expr) (args : List Expr) :
        ofExpr (.call callee args) = .ordered .call ((callee :: args).map ofExpr) := by
      rw [ofExpr, Tree.ofArgs_eq, List.map_cons]
    refine mapOrdered_endsLike hn hchildren ht (hcall callee args) fun images hlength => ?_
    obtain ⟨callee', args', rfl⟩ := List.exists_cons_of_length_eq_add_one hlength
    exact hcall callee' args'

/-- The step of a run: the children of a node. -/
theorem normalizeChildren_endsLike (he : e.WellFormed) (ht : machine.Tracks passes before s s') :
    machine.EndsLike (machine.Leaves passes before s'.trace.length Depicts)
      (normalizeChildren normalize (ofExpr e) s) (Engine.normalizeChildren normalize' e s') := by
  rw [Engine.normalizeChildren_eq, normalizeChildren, Tree.op?_ofExpr]
  refine (mapChildren_endsLike hn he ht).bind ?_
  rintro ⟨_, b⟩ s₁ images s₁' ⟨ht₁, ⟨rfl, himages⟩, hle⟩
  by_cases hsame : images = e.children
  · obtain rfl : b = false := by simpa [hsame] using himages.changed_eq
    rw [if_pos hsame]
    exact .ok ⟨ht₁, ⟨rfl, he⟩, hle⟩
  · obtain rfl : b = true := by simpa [hsame] using himages.changed_eq
    rw [if_neg hsame]
    exact .ok ⟨ht₁, ⟨rfl, Expr.wellFormed_withChildren himages.length_eq himages.wellFormed⟩, hle⟩

/-- What settles on expressions settles on trees: neither runs out of rounds, since every round but
the last records a rewrite. -/
theorem settle_endsLike (h : machine.Follows engine) (he : e.WellFormed)
    (ht : machine.Tracks passes before s s') {bound left : Nat}
    (hbound : machine.config.maxSteps < s'.trace.length + bound)
    (hleft : machine.config.maxSteps < s'.trace.length + left) :
    machine.EndsLike (machine.Leaves passes before s'.trace.length Depicts)
      (settle machine normalize parent bound (ofExpr e) s)
      (Engine.settle engine normalize' parent left e s') := by
  induction bound generalizing left e s s' with
  | zero => have := ht.spent; omega
  | succ bound ih =>
    obtain ⟨left, rfl⟩ :=
      Nat.exists_eq_add_one_of_ne_zero (show left ≠ 0 by have := ht.spent; omega)
    rw [Engine.settle_succ, settle]
    refine (normalizeChildren_endsLike hn he ht).bind ?_
    rintro _ s₁ e₁ s₁' ⟨ht₁, ⟨rfl, he₁⟩, hle₁⟩
    have hrewrite := h.rewrite? parent he₁
    rw [Engine.afterChildren]
    cases hr : engine.rewrite? parent e₁ with
    | error err =>
      rw [hr] at hrewrite
      exact .lift_failed hrewrite
    | ok rewritten =>
      rw [hr] at hrewrite
      refine .lift_ok hrewrite ?_
      cases rewritten with
      | none => exact .ok ⟨ht₁, ⟨rfl, he₁⟩, hle₁⟩
      | some step =>
        refine (record_endsLike h ht₁).bind ?_
        rintro _ s₂ _ s₂' ⟨ht₂, _, hle₂⟩
        have hafter : step.after.WellFormed := Engine.of_forallRewrites h.buildsWellFormed he₁ hr
        exact (ih hafter ht₂ (by omega) (by omega)).of_le (by omega)

end

/-! ## The run -/

/-- Normal forms are the same, from the innermost level outwards. -/
theorem normalize_endsLike (h : machine.Follows engine) (hrounds : machine.config.maxSteps < rounds)
    (levels : Nat) :
    machine.NormalizesLike passes before (machine.normalize rounds levels)
      (engine.normalize levels) := by
  induction levels with
  | zero =>
    intro parent e s s' he ht
    rw [Machine.normalize, Tree.isAtomic_ofExpr]
    cases ha : e.isAtomic with
    | true =>
      rw [engine.normalize_of_isAtomic parent 0 ha]
      exact .ok ⟨ht, ⟨rfl, he⟩, Nat.le_refl _⟩
    | false =>
      have hdeep : machine.tooDeep = .failed (.of engine.tooDeep) := by
        rw [tooDeep, h.config_eq]
        rfl
      rw [engine.normalize_zero parent ha, hdeep]
      exact .failed
  | succ levels ih =>
    intro parent e s s' he ht
    rw [Machine.normalize, Tree.isAtomic_ofExpr]
    cases ha : e.isAtomic with
    | true =>
      rw [engine.normalize_of_isAtomic parent _ ha]
      exact .ok ⟨ht, ⟨rfl, he⟩, Nat.le_refl _⟩
    | false =>
      have hrecalled : engine.recalled? s' (parent, e) = s'.memo[(parent, e)]? := by
        rw [Engine.recalled?, h.recalls, if_pos rfl]
      simp only [Bool.false_eq_true, if_false, get_bind_apply, ht.lookup_eq parent e]
      cases hm : s'.memo[(parent, e)]? with
      | some n =>
        rw [engine.normalize_of_recalled parent ha (hrecalled.trans hm)]
        exact .ok ⟨ht, ⟨rfl, ht.wellFormed _ n hm⟩, Nat.le_refl _⟩
      | none =>
        rw [engine.normalize_of_not_recalled parent ha (hrecalled.trans hm)]
        have hspent := ht.spent
        refine (settle_endsLike ih h he ht (by omega) (by omega)).bind ?_
        rintro _ s₁ n s₁' ⟨ht₁, ⟨rfl, hn⟩, hle⟩
        exact .ok ⟨tracks_remember ht₁ hn parent e, ⟨rfl, hn⟩, hle⟩

/-- What a whole run counts. -/
structure Counts (statistics : Statistics) (outcome : Engine.Outcome) : Prop where
  steps_eq : statistics.steps = outcome.steps
  passes_eq : statistics.passes = outcome.passes
  simplified_eq : statistics.simplified = outcome.simplified
  find?_eq : ∀ name, Entries.find? name statistics.ruleHits = outcome.ruleHits.lookup name

/-- The number of rewrites of each rule that rewrote. -/
theorem lookup_ruleHits (outcome : Engine.Outcome) (name : String) :
    outcome.ruleHits.lookup name =
      if name ∈ outcome.trace.map Step.rule then some ((outcome.trace.map Step.rule).count name)
      else none := by
  split
  · next hm =>
    exact List.lookup_graph _ (List.mem_eraseDups.mpr hm)
  · next habsent =>
    rw [List.lookup_eq_none_iff]
    intro hit hm
    obtain ⟨other, hother, rfl⟩ := List.mem_map.mp hm
    rw [bne_iff_ne]
    rintro rfl
    exact habsent (List.mem_eraseDups.mp hother)

/-- What the last state shows is what the outcome says. -/
theorem counts_finished (ht : machine.Tracks passes before s s') (n : Expr) :
    Counts s.finished.statistics ⟨n, s'.trace.reverse, passes⟩ where
  steps_eq := ht.shows.steps_eq.trans List.length_reverse.symm
  passes_eq := ht.passes_eq
  simplified_eq := by
    simp only [State.finished, ht.shows.steps_eq, Engine.Outcome.simplified, Engine.Outcome.steps,
      List.length_reverse]
  find?_eq name := by
    rw [lookup_ruleHits, List.map_reverse, List.count_reverse]
    simp only [List.mem_reverse]
    exact ht.shows.find?_eq name

/-- A pass begins where the last one ended, with a memo of its own. -/
theorem tracks_inPass (ht : machine.Tracks passes before s s') :
    machine.Tracks (passes + 1) s'.trace.length (s.inPass (passes + 1)) { s' with memo := ∅ } where
  shows := ⟨ht.shows.steps_eq, ht.shows.recent_eq, ht.shows.find?_eq, ht.shows.sum_ruleHits⟩
  passes_eq := rfl
  before_le := Nat.le_refl _
  fired_iff := by simp [State.inPass]
  spent := ht.spent
  lookup_eq _ _ := by simp [State.inPass]
  wellFormed _ _ hm := by simp at hm

/-- Every pass but the last has a rewrite, so that the passes are counted as far as the rewrites
are. -/
theorem runPasses_endsLike (h : machine.Follows engine) (hrounds : machine.config.maxSteps < rounds)
    (he : e.WellFormed) (ht : machine.Tracks passes before s s')
    (hp : passes ≤ s'.trace.length) {bound left : Nat}
    (hbound : machine.config.maxSteps < s'.trace.length + bound)
    (hleft : machine.config.maxSteps < s'.trace.length + left) :
    machine.EndsLike (fun t s outcome _ => t = ofExpr outcome.expr ∧ Counts s.statistics outcome)
      (machine.runPasses rounds bound (ofExpr e) s) (engine.runPasses left passes e s') := by
  induction bound generalizing left e passes before s s' with
  | zero => have := ht.spent; omega
  | succ bound ih =>
    obtain ⟨left, rfl⟩ :=
      Nat.exists_eq_add_one_of_ne_zero (show left ≠ 0 by have := ht.spent; omega)
    rw [engine.runPasses_succ, runPasses]
    by_cases hpasses : s.statistics.passes + 1 < wordCount
    · rw [bind_of_ok (beginPass_of_lt hpasses), ht.passes_eq, h.config_eq]
      refine (normalize_endsLike h hrounds engine.config.maxDepth none e _ _ he
        (tracks_inPass ht)).bind ?_
      rintro _ s₁ n s₁' ⟨ht₁, ⟨rfl, hn⟩, hle⟩
      have hspent := ht.spent
      have hspent₁ := ht₁.spent
      rw [get_bind_apply]
      cases hfired : s₁.fired with
      | true =>
        have hmore : s'.trace.length < s₁'.trace.length := ht₁.fired_iff.mp hfired
        rw [if_pos rfl, if_neg (by omega)]
        exact ih hn ht₁ (by omega) (by omega) (by omega)
      | false =>
        have hsame : ¬ s'.trace.length < s₁'.trace.length := fun hmore =>
          absurd (ht₁.fired_iff.mpr hmore) (by simp [hfired])
        have hle : s'.trace.length ≤ s₁'.trace.length := hle
        rw [if_neg Bool.false_ne_true, if_pos (by omega)]
        exact .ok ⟨rfl, counts_finished ht₁ n⟩
    · have hspent := ht.spent
      have hcounted := ht.passes_eq
      rw [bind_of_error (beginPass_of_not_lt hpasses)]
      exact .halted (Exit.allowed_counter (by omega))

theorem Follows.tracks_start (h : machine.Follows engine) : machine.Tracks 0 0 {} engine.start where
  shows := shows_start machine
  passes_eq := rfl
  before_le := Nat.le_refl 0
  fired_iff := by simp [Engine.start]
  spent := by rw [h.config_eq]; exact Nat.zero_add _
  lookup_eq _ _ := by simp [Engine.start]
  wellFormed _ _ hm := by simp [Engine.start] at hm

theorem run_endsLike (h : machine.Follows engine) (hrounds : machine.config.maxSteps < rounds)
    (he : e.WellFormed) :
    machine.EndsLike (fun t s outcome _ => t = ofExpr outcome.expr ∧ Counts s.statistics outcome)
      (machine.run rounds (ofExpr e) {}) (engine.run e) := by
  have hdepth : machine.config.maxDepth = engine.config.maxDepth := by rw [h.config_eq]
  rw [engine.run_eq, run, Tree.depth_ofExpr, hdepth]
  split
  · have hdeep : machine.tooDeep = .failed (.of engine.tooDeep) := by
      rw [tooDeep, h.config_eq]
      rfl
    rw [hdeep]
    exact .failed
  · refine runPasses_endsLike h hrounds he h.tracks_start (Nat.le_refl 0) ?_ ?_
    · exact Nat.lt_add_left _ hrounds
    · rw [h.config_eq]
      exact Nat.lt_add_left _ (Nat.lt_succ_self _)

/-- What ends a run on trees that would go on on expressions: a buffer larger than any that can be
asked for, a multiplicity beyond a machine word, or a count beyond one. -/
inductive Halts (machine : Machine) : Halt → Prop
  | capacity (h : maxBytes < machine.config.traceLength * stepBytes) : Halts machine .capacity
  | multiplicity : Halts machine .multiplicity
  | counter (h : wordCount ≤ machine.config.maxSteps + 1) : Halts machine .counter

theorem halts_of_allowed {cause : Halt} (h : Exit.Allowed machine (.halted cause)) :
    machine.Halts cause := by
  rcases h cause rfl with rfl | ⟨rfl, hcount⟩
  · exact .multiplicity
  · exact .counter hcount

/-- A run on the tree of a well-formed expression gives the tree of what the run on the expression
gives, and counts what the trace shows; or fails as that one does; or halts, where a machine word or
the memory is too small. -/
theorem Follows.simplify (h : machine.Follows engine) (he : e.WellFormed)
    (hrounds : machine.config.maxSteps < rounds) :
    (∃ outcome statistics, (engine.run e).1 = .ok outcome ∧ Counts statistics outcome ∧
        machine.simplify rounds (ofExpr e) = some (.ok (ofExpr outcome.expr, statistics))) ∨
    (∃ err, (engine.run e).1 = .error err ∧
        machine.simplify rounds (ofExpr e) = some (.error (.failed (.of err)))) ∨
    ∃ cause, machine.Halts cause ∧
      machine.simplify rounds (ofExpr e) = some (.error (.halted cause)) := by
  by_cases hfits : machine.config.traceLength * stepBytes ≤ maxBytes
  · generalize hended : machine.run rounds (ofExpr e) {} = ended, hpart : engine.run e = part
    have hrun := run_endsLike h hrounds he
    rw [hended, hpart] at hrun
    cases hrun with
    | @ok t s outcome s' hok =>
      obtain ⟨rfl, hcounts⟩ := hok
      exact Or.inl ⟨outcome, s.statistics, rfl, hcounts, simplify_of_run hfits hended⟩
    | @failed err s s' => exact Or.inr (Or.inl ⟨err, rfl, simplify_of_run hfits hended⟩)
    | @halted cause s _ hcause =>
      exact Or.inr (Or.inr ⟨cause, halts_of_allowed hcause, simplify_of_run hfits hended⟩)
  · have hlarge := Nat.lt_of_not_le hfits
    refine Or.inr (Or.inr ⟨.capacity, .capacity hlarge, ?_⟩)
    rw [Machine.simplify, if_pos hlarge]

end Symbolic.Machine
