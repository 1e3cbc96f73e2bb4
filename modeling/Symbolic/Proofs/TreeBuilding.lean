import Symbolic.Proofs.Trees

/-! Building trees does what building expressions does, unless a multiplicity is beyond a machine
word. -/
namespace Symbolic

/-- An attempt ends as an exact computation does, or with a multiplicity beyond a machine word. -/
def Follows {α : Type} (attempt : Attempt α) (result : Except Tree.Failure α) : Prop :=
  attempt = result.mapError .failed ∨ attempt = .error (.halted .multiplicity)

namespace Follows

variable {α β : Type} {attempt : Attempt α} {result : Except Tree.Failure α} {a : α} {b : β}

theorem ok (a : α) : Follows (.ok a) (.ok a) := Or.inl rfl

theorem of_eq {a' : α} (h : a = a') : Follows (.ok a) (.ok a') := h ▸ ok a

theorem failed (err : Tree.Failure) : Follows (.error (.failed err) : Attempt α) (.error err) :=
  Or.inl rfl

/-- One step after the other. -/
theorem bind {next : α → Attempt β} {next' : α → Except Tree.Failure β} (h : Follows attempt result)
    (hnext : ∀ a, result = .ok a → Follows (next a) (next' a)) :
    Follows (attempt >>= next) (result >>= next') := by
  rcases h with rfl | rfl
  · cases result with
    | error err => exact failed err
    | ok a => exact hnext a rfl
  · exact Or.inr rfl

theorem bind_ok {next : α → Attempt β} {result' : Except Tree.Failure β}
    (h : Follows attempt (.ok a)) (hnext : Follows (next a) result') :
    Follows (attempt >>= next) result' := by
  rcases h with rfl | rfl
  · exact hnext
  · exact Or.inr rfl

theorem bind_failed {next : α → Attempt β} {err : Tree.Failure} (h : Follows attempt (.error err)) :
    Follows (attempt >>= next) (.error err) := by
  rcases h with rfl | rfl
  · exact failed err
  · exact Or.inr rfl

theorem map (f : α → β) (h : Follows attempt result) : Follows (attempt.map f) (result.map f) := by
  rcases h with rfl | rfl
  · cases result <;> exact Or.inl rfl
  · exact Or.inr rfl

theorem counted {x : Option α} (h : ∀ b, x = some b → b = a) : Follows (counted x) (.ok a) := by
  cases x with
  | none => exact Or.inr rfl
  | some b => exact Or.inl (congrArg _ (h b rfl))

/-- A fold each of whose steps gives what a step of an exact fold gives. -/
theorem foldlM {σ τ : Type} {F : σ → τ} {k : α → β} {step : σ → α → σ} {step' : τ → β → Attempt τ}
    {as : List α} (h : ∀ s, ∀ a ∈ as, Follows (step' (F s) (k a)) (.ok (F (step s a)))) (s : σ) :
    Follows ((as.map k).foldlM step' (F s)) (.ok (F (as.foldl step s))) := by
  induction as generalizing s with
  | nil => exact ok (F s)
  | cons a rest ih =>
    rw [List.map_cons, List.foldlM_cons]
    refine (h s a List.mem_cons_self).bind_ok ?_
    exact ih (fun s a hm => h s a (List.mem_cons_of_mem _ hm)) _

end Follows

/-- The number of children that does not fit is reported, with what the operator takes. -/
theorem Expr.operation_of_not_accepts {op : Operator} {children : List Expr}
    (h : op.arity.accepts children.length = false) :
    operation op children = .error (.invalidArity op op.arity children.length) := by
  simp only [operation]
  split
  · exact absurd (Nat.zero_le children.length) (of_decide_eq_false h)
  · cases h
  · cases h
  · cases h
  · next callee args => exact absurd (Nat.succ_pos args.length) (of_decide_eq_false h)
  · rfl

namespace Tree

open Entries (mapKeys)

variable {e : Expr} {n : Nat} {bag : Bag} {op : Operator} {entries : List (Expr × Nat)}

@[simp] theorem ofExpr_nary (op : SemigroupOp) (terms : List (Expr × Nat)) :
    ofExpr (.nary op terms) = .multiset (.semigroup op) (mapKeys ofExpr terms) := by
  rw [ofExpr, ofTerms_eq]

/-- What is computed on trees by the order of their keys is what is computed on expressions. -/
theorem follows_counted_mapKeys {x : Option Bag} {bag : Bag} (h : ∀ b, x = some b → b = bag) :
    Follows (counted (x.map (mapKeys ofExpr))) (.ok (mapKeys ofExpr bag)) := by
  refine .counted fun b hb => ?_
  obtain ⟨kept, hkept, rfl⟩ := Option.map_eq_some_iff.mp hb
  rw [h kept hkept]

theorem follows_insertMany (e : Expr) (n : Nat) (bag : Bag) :
    Follows (counted (Entries.insertMany? (ofExpr e) n (mapKeys ofExpr bag)))
      (.ok (mapKeys ofExpr (Bag.insertMany e n bag))) := by
  rw [Entries.insertMany?_mapKeys compare_ofExpr_eq]
  exact follows_counted_mapKeys fun _ => Entries.insertMany?_exact

theorem follows_insert (e : Expr) (bag : Bag) :
    Follows (counted (Entries.insert? (ofExpr e) (mapKeys ofExpr bag)))
      (.ok (mapKeys ofExpr (Bag.insert e bag))) :=
  follows_insertMany e 1 bag

theorem follows_merge (bag : Bag) (entries : List (Expr × Nat)) :
    Follows (counted (Entries.merge? (mapKeys ofExpr bag) (mapKeys ofExpr entries)))
      (.ok (mapKeys ofExpr (Bag.merge bag entries))) := by
  rw [Entries.merge?_mapKeys compare_ofExpr_eq]
  exact follows_counted_mapKeys fun _ => Entries.merge?_exact

theorem follows_ofList (es : List Expr) :
    Follows (counted (Entries.ofList? (es.map ofExpr))) (.ok (mapKeys ofExpr (Bag.ofList es))) := by
  rw [Entries.ofList?_map compare_ofExpr_eq]
  exact follows_counted_mapKeys fun _ => Entries.ofList?_exact

theorem follows_partition (h : bag.Canonical) (p : Tree → Nat → Bool) :
    Follows (counted (Entries.partition? (mapKeys ofExpr bag) p))
      (.ok (Prod.map (mapKeys ofExpr) (mapKeys ofExpr)
        (Bag.split bag fun e n => p (ofExpr e) n))) := by
  rw [Entries.partition?_mapKeys compare_ofExpr_eq]
  refine .counted fun parts hparts => ?_
  obtain ⟨kept, hkept, rfl⟩ := Option.map_eq_some_iff.mp hparts
  rw [Entries.partition?_exact h hkept]

/-! ## Failures and results -/

/-- A rewrite of an expression as one of its tree. -/
def Step.of (step : Symbolic.Step) : Step := ⟨step.rule, ofExpr step.before, ofExpr step.after⟩

def Failure.of : SimplifyError → Failure
  | .construction cause => .construction cause
  | .undefinedOperation op cause => .undefinedOperation op cause
  | .nonTerminating limit recent => .nonTerminating limit (recent.map Step.of)
  | .tooDeep limit => .tooDeep limit

/-- What a computation on expressions gives, on trees. -/
def onTrees {α β : Type} (f : α → β) (result : Except SimplifyError α) : Except Failure β :=
  (result.mapError Failure.of).map f

/-- What is built, on trees. -/
def built (result : Except ExprError Expr) : Except Failure Tree :=
  onTrees ofExpr (result.mapError .construction)

theorem follows_total (bag : Bag) :
    Follows (counted (Entries.total? (mapKeys ofExpr bag))) (.ok bag.total) := by
  refine .counted fun n hn => ?_
  rw [Entries.total?_mapKeys, Entries.total?_eq, wordSum?_eq_some_iff] at hn
  omega

theorem follows_ofMultiset (op : Operator) (bag : Bag) :
    Follows (ofMultiset op (mapKeys ofExpr bag)) (built (Expr.ofBag op bag)) := by
  cases op with
  | semigroup op =>
    have hbuilt : built (Expr.ofBag (.semigroup op) bag) =
        .ok (.multiset (.semigroup op) (mapKeys ofExpr bag)) :=
      congrArg Except.ok (ofExpr_nary op bag)
    rw [hbuilt]
    exact .ok _
  | unary | binary | conditional | call => exact (follows_total bag).bind_ok (.failed _)

theorem follows_operation (op : Operator) (children : List Expr) :
    Follows (operation op (children.map ofExpr)) (built (Expr.operation op children)) := by
  cases haccepts : op.arity.accepts children.length with
  | false =>
    rw [operation, List.length_map, if_neg (by simp [haccepts]),
      Expr.operation_of_not_accepts haccepts, invalidArity]
    exact .failed _
  | true =>
    rw [operation, List.length_map, if_pos haccepts]
    cases op with
    | semigroup op =>
      refine (follows_ofList children).bind_ok ?_
      have hbuilt : built (Expr.operation (.semigroup op) children) =
          .ok (.multiset (.semigroup op) (mapKeys ofExpr (Bag.ofList children))) :=
        congrArg Except.ok (ofExpr_nary op _)
      rw [hbuilt]
      exact .ok _
    | unary op =>
      obtain ⟨arg, rfl⟩ := List.length_eq_one_iff.mp (of_decide_eq_true haccepts)
      exact .ok _
    | binary op =>
      obtain ⟨lhs, rhs, rfl⟩ := List.length_eq_two.mp (of_decide_eq_true haccepts)
      exact .ok _
    | conditional =>
      obtain ⟨test, whenTrue, whenFalse, rfl⟩ :=
        List.length_eq_three.mp (of_decide_eq_true haccepts)
      exact .ok _
    | call =>
      obtain ⟨callee, args, rfl⟩ := List.exists_cons_of_length_pos (of_decide_eq_true haccepts)
      rw [Expr.operation, built, onTrees]
      simp only [Except.mapError, Except.map, ofExpr, ofArgs_eq]
      exact .ok _

theorem follows_pair (op : SemigroupOp) (a b : Expr) :
    Follows (pair op (ofExpr a) (ofExpr b)) (.ok (ofExpr (.pair op a b))) := by
  refine (follows_ofList [a, b]).bind_ok ?_
  rw [Expr.pair, ofExpr_nary]
  exact .ok _

theorem follows_neg (e : Expr) : Follows (neg (ofExpr e)) (.ok (ofExpr e.neg)) :=
  follows_pair .mul e (.int (-1))

theorem follows_sub (a b : Expr) : Follows (sub (ofExpr a) (ofExpr b)) (.ok (ofExpr (a.sub b))) :=
  (follows_neg b).bind_ok (follows_pair .add a b.neg)

theorem follows_shl (a b : Expr) : Follows (shl (ofExpr a) (ofExpr b)) (.ok (ofExpr (a.shl b))) :=
  follows_pair .mul a (.pow (.int 2) b)

end Tree
end Symbolic
