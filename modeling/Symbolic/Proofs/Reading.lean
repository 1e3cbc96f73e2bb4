import Symbolic.Expr.Place
import Symbolic.Expr.Value
import Symbolic.Proofs.Children

/-! Evaluation with a choice of what has to have a value, so that what is proved of all readings
holds of exact evaluation, of evaluation that skips no branch, and of evaluation by places. -/
namespace Symbolic

/-- A strict reading needs a value of both branches of a conditional, and a sorted one gives `&&`
and `||` a value only where truth counts. -/
structure Reading where
  width : Nat
  env : Assignment
  strict : Bool
  sorted : Bool

namespace Reading

def admits (reading : Reading) (place : Place) (op : SemigroupOp) : Bool :=
  !reading.sorted || !op.isLogical || place = .truth

/-- The branch that a test takes. -/
def choose (reading : Reading) (test : Int) (whenTrue whenFalse : Option Int) : Option Int :=
  if reading.strict && (whenTrue.isNone || whenFalse.isNone) then none
  else if test ≠ 0 then whenTrue else whenFalse

variable {reading : Reading} {place : Place} {c c' v : Int} {a a' b b' : Option Int}

theorem choose_eq_some_iff : reading.choose c a b = some v ↔
    (reading.strict = true → a.isSome = true ∧ b.isSome = true) ∧
      (if c ≠ 0 then a else b) = some v := by
  cases hs : reading.strict <;> cases a <;> cases b <;> simp [choose, hs]

/-- The branch that is taken agrees, if both agree and the tests have the same truth. -/
theorem exists_choose (hc : c' = 0 ↔ c = 0)
    (ha : ∀ v, a = some v → ∃ w, a' = some w ∧ place.Agrees v w)
    (hb : ∀ v, b = some v → ∃ w, b' = some w ∧ place.Agrees v w)
    (h : reading.choose c a b = some v) :
    ∃ w, reading.choose c' a' b' = some w ∧ place.Agrees v w := by
  have himage {o o' : Option Int} (h : ∀ v, o = some v → ∃ w, o' = some w ∧ place.Agrees v w)
      (ho : o.isSome = true) : o'.isSome = true := by
    obtain ⟨v, hv⟩ := Option.isSome_iff_exists.mp ho
    obtain ⟨w, hw, _⟩ := h v hv
    exact Option.isSome_iff_exists.mpr ⟨w, hw⟩
  obtain ⟨hneeds, hv⟩ := choose_eq_some_iff.mp h
  have hneeds' := fun hstrict => (hneeds hstrict).imp (himage ha) (himage hb)
  by_cases hzero : c = 0
  · obtain ⟨w, hw, hagrees⟩ := hb v (by simpa [hzero] using hv)
    exact ⟨w, choose_eq_some_iff.mpr ⟨hneeds', by simpa [hc.mpr hzero] using hw⟩, hagrees⟩
  · obtain ⟨w, hw, hagrees⟩ := ha v (by simpa [hzero] using hv)
    exact ⟨w, choose_eq_some_iff.mpr ⟨hneeds', by simpa [hc.not.mpr hzero] using hw⟩, hagrees⟩

end Reading

namespace Expr

mutual

/-- The value of an expression at a place, in a reading. -/
def read (reading : Reading) (place : Place) : Expr → Option Int
  | .constant (.int v) => some v
  | .constant (.float _) => none
  | .symbol name => some (reading.env name)
  | .nary op terms =>
    if reading.admits place op then readTerms reading op op.neutral terms else none
  | .unary op arg => (arg.read reading op.place).map op.apply
  | .binary op lhs rhs =>
    (lhs.read reading .value).bind fun a =>
      (rhs.read reading .value).bind fun b => op.result? reading.width a b
  | .conditional test whenTrue whenFalse =>
    (test.read reading .truth).bind fun c =>
      reading.choose c (whenTrue.read reading place) (whenFalse.read reading place)
  | .call .. => none
termination_by structural e => e

def readTerms (reading : Reading) (op : SemigroupOp) (acc : Int) : List (Expr × Nat) → Option Int
  | [] => some acc
  | (e, count) :: rest =>
    (e.read reading op.place).bind fun v => readTerms reading op (op.applyMany acc v count) rest
termination_by structural terms => terms

end

mutual

/-- Exact evaluation is neither strict nor sorted, and does not see places. -/
theorem read_exact (width : Nat) (env : Assignment) (place : Place) :
    ∀ e : Expr, e.read ⟨width, env, false, false⟩ place = e.value? width env
  | .constant (.int _) | .constant (.float _) | .symbol _ | .call .. => rfl
  | .nary op terms => by
    rw [read, value?, readTerms_exact]
    rfl
  | .unary op arg => by rw [read, value?, read_exact]
  | .binary op lhs rhs => by rw [read, value?, read_exact, read_exact]
  | .conditional test whenTrue whenFalse => by
    rw [read, value?, read_exact, read_exact, read_exact]
    rfl

theorem readTerms_exact (width : Nat) (env : Assignment) (op : SemigroupOp) (acc : Int) :
    ∀ terms : List (Expr × Nat),
      readTerms ⟨width, env, false, false⟩ op acc terms = termsValue? width env op acc terms
  | [] => rfl
  | (e, count) :: rest => by
    rw [readTerms, termsValue?, read_exact]
    congr 1
    funext v
    rw [readTerms_exact]

end

variable {reading reading' : Reading} {place place' : Place} {op : SemigroupOp} {terms : Bag}
  {width : Nat} {env : Assignment} {strict sorted sorted' : Bool} {e : Expr} {v acc : Int}

theorem readTerms_mono
    (h : ∀ x ∈ Bag.keys terms, ∀ v, x.read reading op.place = some v →
      x.read reading' op.place = some v)
    (hv : readTerms reading op acc terms = some v) : readTerms reading' op acc terms = some v := by
  induction terms generalizing acc with
  | nil => exact hv
  | cons entry rest ih =>
    simp only [readTerms, Option.bind_eq_some_iff] at hv ⊢
    obtain ⟨w, hw, hrest⟩ := hv
    exact ⟨w, h entry.1 List.mem_cons_self w hw,
      ih (fun x hx => h x (List.mem_cons_of_mem _ hx)) hrest⟩

theorem termsKeepPlaces_iff :
    termsKeepPlaces place terms = true ↔ ∀ x ∈ Bag.keys terms, x.keepsPlaces place = true := by
  induction terms with
  | nil => simp [termsKeepPlaces, Bag.keys]
  | cons entry rest ih => simpa [termsKeepPlaces, Bag.keys] using fun _ => ih

theorem argsKeepPlaces_iff {args : List Expr} :
    argsKeepPlaces args = true ↔ ∀ x ∈ args, x.keepsPlaces .value = true := by
  induction args with
  | nil => simp [argsKeepPlaces]
  | cons x rest ih => simpa [argsKeepPlaces] using fun _ => ih

theorem admits_of_keepsPlaces (h : (nary op terms).keepsPlaces place = true) :
    reading.admits place op = true := by
  simp only [keepsPlaces, Bool.and_eq_true, Bool.or_eq_true] at h
  simp only [Reading.admits, Bool.or_eq_true]
  exact h.1.elim (fun hop => Or.inl (Or.inr hop)) Or.inr

theorem admits_mono (hs : sorted' = true → sorted = true) (hp : place = .truth → place' = .truth)
    (h : Reading.admits ⟨width, env, strict, sorted⟩ place op = true) :
    Reading.admits ⟨width, env, strict, sorted'⟩ place' op = true := by
  simp only [Reading.admits, Bool.or_eq_true, Bool.not_eq_true', decide_eq_true_eq] at h ⊢
  rcases h with (h | h) | h
  · exact Or.inl (Or.inl (by simpa [h] using hs))
  · exact Or.inl (Or.inr h)
  · exact Or.inr (hp h)

theorem choose_mono {c : Int} {a a' b b' : Option Int} (ha : ∀ v, a = some v → a' = some v)
    (hb : ∀ v, b = some v → b' = some v) (h : reading.choose c a b = some v) :
    reading.choose c a' b' = some v := by
  have hsame {o o' : Option Int} (h : ∀ v, o = some v → o' = some v) :
      ∀ v, o = some v → ∃ w, o' = some w ∧ Place.value.Agrees v w :=
    fun v hv => ⟨v, h v hv, rfl⟩
  obtain ⟨w, hw, rfl⟩ := Reading.exists_choose Iff.rfl (hsame ha) (hsame hb) h
  exact hw

/-- What has a value has it too where truth counts, in a reading that is not sorted, and in one that
is if `&&` and `||` keep to their places. -/
theorem read_mono (hs : sorted' = true → sorted = true ∨ e.keepsPlaces place' = true)
    (hp : place = .truth → place' = .truth)
    (h : e.read ⟨width, env, strict, sorted⟩ place = some v) :
    e.read ⟨width, env, strict, sorted'⟩ place' = some v := by
  induction e using Expr.induction generalizing place place' v with
  | h e ih =>
    cases e with
    | constant value => cases value <;> exact h
    | symbol name => exact h
    | nary op terms =>
      simp only [read] at h ⊢
      split at h
      · next hadmits =>
        have hadmits' : Reading.admits ⟨width, env, strict, sorted'⟩ place' op = true := by
          by_cases hkeeps : (nary op terms).keepsPlaces place' = true
          · exact admits_of_keepsPlaces hkeeps
          · exact admits_mono (fun hsorted => (hs hsorted).resolve_right hkeeps) hp hadmits
        rw [if_pos hadmits']
        refine readTerms_mono (fun x hx v hv => ih x hx ?_ id hv) h
        refine fun hsorted => (hs hsorted).imp_right fun hkeeps => ?_
        simp only [keepsPlaces, Bool.and_eq_true, termsKeepPlaces_iff] at hkeeps
        exact hkeeps.2 x hx
      · cases h
    | unary op arg =>
      simp only [read, Option.map_eq_some_iff] at h ⊢
      obtain ⟨a, ha, rfl⟩ := h
      exact ⟨a, ih arg List.mem_cons_self hs id ha, rfl⟩
    | binary op lhs rhs =>
      simp only [keepsPlaces, Bool.and_eq_true] at hs
      simp only [read, Option.bind_eq_some_iff] at h ⊢
      obtain ⟨a, ha, b, hb, hv⟩ := h
      have hleft := fun hsorted => (hs hsorted).imp_right And.left
      have hright := fun hsorted => (hs hsorted).imp_right And.right
      exact ⟨a, ih lhs List.mem_cons_self hleft id ha, b,
        ih rhs (List.mem_cons_of_mem _ List.mem_cons_self) hright id hb, hv⟩
    | conditional test whenTrue whenFalse =>
      simp only [keepsPlaces, Bool.and_eq_true] at hs
      simp only [read, Option.bind_eq_some_iff] at h ⊢
      obtain ⟨c, hc, hv⟩ := h
      have htest := fun hsorted => (hs hsorted).imp_right And.left
      have htrue := fun hsorted => (hs hsorted).imp_right fun h => h.2.1
      have hfalse := fun hsorted => (hs hsorted).imp_right fun h => h.2.2
      refine ⟨c, ih test (by simp [children, ordered]) htest id hc, choose_mono ?_ ?_ hv⟩
      · exact fun v hv => ih whenTrue (by simp [children, ordered]) htrue hp hv
      · exact fun v hv => ih whenFalse (by simp [children, ordered]) hfalse hp hv
    | call callee args => cases h

/-- Where every part of an expression has a value, no branch is missed. -/
theorem read_strict (hd : e.Everywhere fun x => (x.value? width env).isSome = true)
    (h : e.read ⟨width, env, false, false⟩ place = some v) :
    e.read ⟨width, env, true, false⟩ place = some v := by
  induction e using Expr.induction generalizing place v with
  | h e ih =>
    have hc := (everywhere_iff.mp hd).2
    cases e with
    | constant value => cases value <;> exact h
    | symbol name => exact h
    | nary op terms =>
      simp only [read] at h ⊢
      exact readTerms_mono (fun x hx v hv => ih x hx (hc x hx) hv) h
    | unary op arg =>
      simp only [read, Option.map_eq_some_iff] at h ⊢
      obtain ⟨a, ha, rfl⟩ := h
      have hm : arg ∈ (unary op arg).children := List.mem_cons_self
      exact ⟨a, ih arg hm (hc arg hm) ha, rfl⟩
    | binary op lhs rhs =>
      simp only [read, Option.bind_eq_some_iff] at h ⊢
      obtain ⟨a, ha, b, hb, hv⟩ := h
      have hl : lhs ∈ (binary op lhs rhs).children := List.mem_cons_self
      have hr : rhs ∈ (binary op lhs rhs).children := List.mem_cons_of_mem _ List.mem_cons_self
      exact ⟨a, ih lhs hl (hc lhs hl) ha, b, ih rhs hr (hc rhs hr) hb, hv⟩
    | conditional test whenTrue whenFalse =>
      simp only [read, Option.bind_eq_some_iff] at h ⊢
      obtain ⟨c, htest, hv⟩ := h
      have hmem : test ∈ (conditional test whenTrue whenFalse).children ∧
          whenTrue ∈ (conditional test whenTrue whenFalse).children ∧
          whenFalse ∈ (conditional test whenTrue whenFalse).children := by simp [children, ordered]
      have branch {x : Expr} (hx : x ∈ (conditional test whenTrue whenFalse).children) :
          ∃ w, x.read ⟨width, env, false, false⟩ place = some w ∧
            x.read ⟨width, env, true, false⟩ place = some w := by
        obtain ⟨w, hw⟩ := Option.isSome_iff_exists.mp (everywhere_iff.mp (hc x hx)).1
        rw [← read_exact width env place] at hw
        exact ⟨w, hw, ih x hx (hc x hx) hw⟩
      obtain ⟨a, ha, ha'⟩ := branch hmem.2.1
      obtain ⟨b, hb, hb'⟩ := branch hmem.2.2
      refine ⟨c, ih test hmem.1 (hc test hmem.1) htest, ?_⟩
      rw [ha, hb] at hv
      rw [ha', hb']
      exact hv
    | call callee args => cases h

end Expr
end Symbolic
