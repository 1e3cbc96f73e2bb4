import Symbolic.Proofs.Combination
import Symbolic.Proofs.NaryValues

/-! The constant and the multiples of symbols that a normal form combines. Values under all
assignments tell them: the neutral assignment gives the constant, and one that probes a symbol gives
its coefficient. -/
namespace Symbolic

namespace SemigroupOp

variable {op : SemigroupOp} {α : Type} {f g : α → Int} {xs : List α} {a : α}

theorem total_map_apply (op : SemigroupOp) (f g : α → Int) (xs : List α) :
    op.total (xs.map fun x => op.apply (f x) (g x)) =
      op.apply (op.total (xs.map f)) (op.total (xs.map g)) := by
  induction xs with
  | nil => exact (seen_neutral op).symm
  | cons x xs ih =>
    simp only [List.map_cons, total_cons]
    rw [ih, apply_assoc, apply_assoc, op.apply_left_comm (g x)]

theorem total_of_forall_neutral (h : ∀ x ∈ xs, f x = op.neutral) :
    op.total (xs.map f) = op.neutral := by
  induction xs with
  | nil => rfl
  | cons x xs ih =>
    rw [List.map_cons, total_cons, h x List.mem_cons_self,
      ih fun y hy => h y (List.mem_cons_of_mem _ hy), neutral_apply, seen_neutral]

/-- Where all members but one are neutral, the total is that one. -/
theorem total_of_unique (hnodup : xs.Nodup) (ha : a ∈ xs) (h : ∀ x ∈ xs, x ≠ a → f x = op.neutral) :
    op.total (xs.map f) = op.seen (f a) := by
  induction xs with
  | nil => cases ha
  | cons x xs ih =>
    obtain ⟨hx, hrest⟩ := List.nodup_cons.mp hnodup
    rw [List.map_cons, total_cons]
    by_cases hxa : x = a
    · subst hxa
      rw [total_of_forall_neutral fun y hy => h y (List.mem_cons_of_mem _ hy) ?_]
      · rfl
      · rintro rfl
        exact hx hy
    · have hmem : a ∈ xs := (List.mem_cons.mp ha).resolve_left fun heq => hxa heq.symm
      rw [h x List.mem_cons_self hxa, ih hrest hmem fun y hy => h y (List.mem_cons_of_mem _ hy),
        neutral_apply, seen_seen_of_isLogical rfl]

/-- An operand that shows, unless a constant absorbs it. -/
def probe : SemigroupOp → Int
  | .add | .bitXor | .or => 1
  | .bitOr => -1
  | .mul | .bitAnd | .and => 0

theorem not_absorbs_neutral (op : SemigroupOp) : ¬ op.Absorbs (.int op.neutral) := by
  cases op with
  | add | bitXor => exact id
  | mul | bitAnd | bitOr | and | or => simp [Absorbs, neutral, Number.isZero, Number.isTruthy]

theorem apply_probe_ne (hop : op ≠ .mul) {k c : Int} (hk : ¬ op.Absorbs (.int k)) (hc : c ≠ 0)
    (hone : op ≠ .add → c = 1) : op.apply k (op.seen (c * op.probe)) ≠ op.apply k op.neutral := by
  rw [apply_seen]
  cases op with
  | mul => exact (hop rfl).elim
  | add =>
    simp only [apply, probe, neutral]
    omega
  | bitAnd =>
    rw [hone (by decide)]
    simpa [apply, probe, neutral, TwosComplement.and_zero, TwosComplement.and_neg_one, Absorbs,
      eq_comm] using hk
  | bitOr =>
    rw [hone (by decide)]
    simpa [apply, probe, neutral, TwosComplement.or_zero, TwosComplement.or_neg_one, Absorbs,
      eq_comm] using hk
  | bitXor =>
    rw [hone (by decide)]
    intro hsame
    have hcancel := congrArg (TwosComplement.xor k) hsame
    simp only [apply, probe, neutral, Int.one_mul, TwosComplement.xor_zero, TwosComplement.xor_self]
      at hcancel
    rw [← TwosComplement.xor_assoc, TwosComplement.xor_self, TwosComplement.xor_comm,
      TwosComplement.xor_zero] at hcancel
    cases hcancel
  | and =>
    rw [hone (by decide)]
    simpa [apply, probe, neutral, truth, Absorbs, Number.isTruthy, Number.isZero] using hk
  | or =>
    rw [hone (by decide)]
    simpa [apply, probe, neutral, truth, Absorbs, Number.isTruthy, Number.isZero] using hk

end SemigroupOp

/-- The reading that skips the branches not taken, and has truth values only where truth counts. -/
def Reading.byPlaces (width : Nat) (env : Assignment) : Reading := ⟨width, env, false, true⟩

/-- An operand of a normal form: a constant, or a symbol with its coefficient. -/
inductive Part
  | constant (value : Int)
  | monomial (coefficient : Int) (name : String)
deriving DecidableEq, Inhabited

namespace Part

def expr : Part → Expr
  | .constant value => .int value
  | .monomial coefficient name =>
    if coefficient = 1 then .symbol name else .scaled (.int coefficient) name

def value (env : Assignment) : Part → Int
  | .constant value => value
  | .monomial coefficient name => coefficient * env name

/-- Symbols have coefficients only under `+`, and none is zero. -/
def Fits (op : SemigroupOp) : Part → Prop
  | .constant _ => True
  | .monomial coefficient _ => coefficient ≠ 0 ∧ (op ≠ .add → coefficient = 1)

variable {op : SemigroupOp}

theorem value_neutral {coefficient : Int} {name : String}
    (h : (monomial coefficient name).Fits op) :
    (monomial coefficient name).value (fun _ => op.neutral) = op.neutral := by
  by_cases hop : op = .add
  · subst hop
    exact Int.mul_zero coefficient
  · rw [value, h.2 hop, Int.one_mul]

end Part

/-- Parts of which none can be combined with another one. -/
structure Independent (op : SemigroupOp) (parts : List Part) : Prop where
  nodup : parts.Nodup
  fits : ∀ p ∈ parts, p.Fits op
  constant_unique : ∀ v w, .constant v ∈ parts → .constant w ∈ parts → v = w
  constant_seen : ∀ v, .constant v ∈ parts → op.seen v = v ∧ v ≠ op.neutral
  coefficient_unique : ∀ c d name, .monomial c name ∈ parts → .monomial d name ∈ parts → c = d
  not_absorbs : ∀ v c name, .constant v ∈ parts → .monomial c name ∈ parts → ¬ op.Absorbs (.int v)

namespace Independent

variable {op : SemigroupOp} {parts parts' : List Part} {p : Part} {v c : Int} {name : String}

/-- The constant, or the neutral operand where there is none. -/
def constantOf (op : SemigroupOp) (parts : List Part) : Int :=
  op.total (parts.map (Part.value fun _ => op.neutral))

theorem constantOf_eq (h : Independent op parts) (hv : .constant v ∈ parts) :
    constantOf op parts = v := by
  rw [constantOf, SemigroupOp.total_of_unique h.nodup hv]
  · exact (h.constant_seen v hv).1
  · intro p hp hne
    cases p with
    | constant w => exact (hne (congrArg Part.constant (h.constant_unique w v hp hv))).elim
    | monomial c name => exact Part.value_neutral (h.fits _ hp)

theorem constantOf_eq_neutral (h : Independent op parts) (hnone : ∀ v, .constant v ∉ parts) :
    constantOf op parts = op.neutral := by
  refine SemigroupOp.total_of_forall_neutral fun p hp => ?_
  cases p with
  | constant v => exact (hnone v hp).elim
  | monomial c name => exact Part.value_neutral (h.fits _ hp)

/-- What a part gives under the probing of a symbol. -/
def share (op : SemigroupOp) (name : String) : Part → Int
  | .constant _ => op.neutral
  | .monomial coefficient name' => if name' = name then coefficient * op.probe else op.neutral

/-- The assignment that probes one symbol, and has all others neutral. -/
def probing (op : SemigroupOp) (name : String) : Assignment :=
  fun name' => if name' = name then op.probe else op.neutral

theorem total_probing (h : Independent op parts) (name : String) :
    op.total (parts.map (Part.value (probing op name))) =
      op.apply (constantOf op parts) (op.total (parts.map (share op name))) := by
  rw [constantOf, ← SemigroupOp.total_map_apply]
  refine SemigroupOp.total_congr fun p hp => ?_
  cases p with
  | constant v => exact (SemigroupOp.seen_seen_of_isLogical rfl v).symm
  | monomial c name' =>
    have hneutral := Part.value_neutral (h.fits _ hp)
    rw [hneutral, SemigroupOp.neutral_apply, SemigroupOp.seen_seen_of_isLogical rfl]
    by_cases hname : name' = name
    · simp [Part.value, probing, share, hname]
    · rw [share, if_neg hname, ← hneutral]
      simp [Part.value, probing, hname]

theorem total_share (h : Independent op parts) (hc : .monomial c name ∈ parts) :
    op.total (parts.map (share op name)) = op.seen (c * op.probe) := by
  rw [SemigroupOp.total_of_unique h.nodup hc]
  · simp [share]
  · intro p hp hne
    cases p with
    | constant => rfl
    | monomial d name' =>
      refine if_neg ?_
      rintro rfl
      exact hne (by rw [h.coefficient_unique d c name' hp hc])

theorem total_share_eq_neutral (hnone : ∀ c, .monomial c name ∉ parts) :
    op.total (parts.map (share op name)) = op.neutral := by
  refine SemigroupOp.total_of_forall_neutral fun p hp => ?_
  cases p with
  | constant => rfl
  | monomial c name' =>
    refine if_neg ?_
    rintro rfl
    exact hnone c hp

theorem not_absorbs_constantOf (h : Independent op parts) (hc : .monomial c name ∈ parts) :
    ¬ op.Absorbs (.int (constantOf op parts)) := by
  by_cases hconstant : ∃ v, Part.constant v ∈ parts
  · obtain ⟨v, hv⟩ := hconstant
    rw [h.constantOf_eq hv]
    exact h.not_absorbs v c name hv hc
  · rw [h.constantOf_eq_neutral fun v hv => hconstant ⟨v, hv⟩]
    exact op.not_absorbs_neutral

section

variable (h : Independent op parts) (h' : Independent op parts')
  (hvalues : ∀ env, op.total (parts.map (Part.value env)) = op.total (parts'.map (Part.value env)))

include h h' hvalues

theorem constant_mem (hv : .constant v ∈ parts) : .constant v ∈ parts' := by
  have hconstant : constantOf op parts' = v := by
    rw [← h.constantOf_eq hv]
    exact (hvalues _).symm
  by_cases hsome : ∃ w, Part.constant w ∈ parts'
  · obtain ⟨w, hw⟩ := hsome
    rw [h'.constantOf_eq hw] at hconstant
    rwa [← hconstant]
  · rw [h'.constantOf_eq_neutral fun w hw => hsome ⟨w, hw⟩] at hconstant
    exact ((h.constant_seen v hv).2 hconstant.symm).elim

theorem monomial_mem (hop : op ≠ .mul) (hc : .monomial c name ∈ parts) :
    .monomial c name ∈ parts' := by
  obtain ⟨hzero, hone⟩ := h.fits _ hc
  have hconstant : constantOf op parts' = constantOf op parts := (hvalues _).symm
  have hprobe := hvalues (probing op name)
  rw [h.total_probing, h'.total_probing, hconstant, h.total_share hc] at hprobe
  by_cases hsome : ∃ d, Part.monomial d name ∈ parts'
  · obtain ⟨d, hd⟩ := hsome
    rw [h'.total_share hd] at hprobe
    obtain rfl : c = d := by
      by_cases hadd : op = .add
      · subst hadd
        simpa [SemigroupOp.apply, SemigroupOp.seen, SemigroupOp.probe, SemigroupOp.neutral]
          using hprobe
      · rw [hone hadd, (h'.fits _ hd).2 hadd]
    exact hd
  · rw [total_share_eq_neutral fun d hd => hsome ⟨d, hd⟩] at hprobe
    exact (SemigroupOp.apply_probe_ne hop (h.not_absorbs_constantOf hc) hzero hone hprobe).elim

end

/-- Parts that have the same value under all assignments are the same. -/
theorem perm_of_values (h : Independent op parts) (h' : Independent op parts') (hop : op ≠ .mul)
    (hvalues : ∀ env,
      op.total (parts.map (Part.value env)) = op.total (parts'.map (Part.value env))) :
    parts.Perm parts' := by
  refine (List.perm_ext_iff_of_nodup h.nodup h'.nodup).mpr fun p => ?_
  cases p with
  | constant v =>
    exact ⟨h.constant_mem h' hvalues, h'.constant_mem h fun env => (hvalues env).symm⟩
  | monomial c name =>
    exact ⟨h.monomial_mem h' hvalues hop, h'.monomial_mem h (fun env => (hvalues env).symm) hop⟩

end Independent

namespace Expr

variable {op : SemigroupOp} {width : Nat} {place : Place} {e e' : Expr} {parts parts' : List Part}
  {terms : Bag}

/-- An expression that combines parts, each once: none is the neutral operand, and a part alone
stands for itself. -/
inductive Comprises (op : SemigroupOp) : Expr → List Part → Prop
  | neutral : Comprises op (.int op.neutral) []
  | part {p : Part} (h : p ≠ .constant op.neutral) : Comprises op p.expr [p]
  | nary {terms : Bag} {parts : List Part} (htwo : 2 ≤ terms.length)
      (hone : ∀ entry ∈ terms, entry.2 = 1) (hkeys : Bag.keys terms = parts.map Part.expr) :
      Comprises op (.nary op terms) parts

/-- The parts tell the expression, in whatever order they are. -/
theorem Comprises.eq_of_perm (h : Comprises op e parts) (h' : Comprises op e' parts')
    (hw : e.WellFormed) (hw' : e'.WellFormed) (hperm : parts.Perm parts') : e = e' := by
  have length_eq {terms : Bag} {parts : List Part} (hkeys : Bag.keys terms = parts.map Part.expr) :
      terms.length = parts.length := by
    have hlength := congrArg List.length hkeys
    simpa [Bag.keys] using hlength
  have hlength := hperm.length_eq
  cases h with
  | neutral =>
    cases h' with
    | neutral => rfl
    | part => cases hlength
    | nary htwo _ hkeys =>
      rw [length_eq hkeys, ← hlength] at htwo
      cases htwo
  | part =>
    cases h' with
    | neutral => cases hlength
    | part =>
      cases List.perm_singleton.mp hperm
      rfl
    | nary htwo _ hkeys =>
      rw [length_eq hkeys, ← hlength] at htwo
      simp at htwo
  | nary htwo hone hkeys =>
    cases h' with
    | neutral =>
      rw [length_eq hkeys, hlength] at htwo
      cases htwo
    | part =>
      rw [length_eq hkeys, hlength] at htwo
      simp at htwo
    | nary _ hone' hkeys' =>
      refine congrArg _ (hw.canonical.eq_of_perm hw'.canonical ?_)
      rw [Bag.elements_eq_keys hone, Bag.elements_eq_keys hone', hkeys, hkeys']
      exact hperm.map _

theorem Monomial.exists_part (h : Monomial op e)
    (hd : ∀ env, e.Defined (.byPlaces width env) place) :
    ∃ p : Part, e = p.expr ∧ p.Fits op ∧ ∀ env,
      e.worth (.byPlaces width env) place = p.value env := by
  cases h with
  | constant value =>
    obtain ⟨v, rfl⟩ := Rules.exists_int_of_defined (hd fun _ => 0)
    exact ⟨.constant v, rfl, trivial, fun _ => rfl⟩
  | symbol name =>
    have hvalue (env : Assignment) : env name = 1 * env name := (Int.one_mul _).symm
    exact ⟨.monomial 1 name, rfl, ⟨by decide, fun _ => rfl⟩, hvalue⟩
  | scaled coefficient name hop hone hzero =>
    obtain ⟨_, hkeys⟩ := defined_nary_iff.mp (hd fun _ => 0)
    obtain ⟨c, rfl⟩ := Rules.exists_int_of_defined (hkeys _ List.mem_cons_self)
    have hne : c ≠ 1 := fun hc => hone (congrArg Number.int hc)
    refine ⟨.monomial c name, (if_neg hne).symm, ⟨by simpa [Number.isZero] using hzero, ?_⟩, ?_⟩
    · exact fun hadd => (hadd hop).elim
    · intro env
      rw [Expr.scaled, worth_nary (hd env)]
      simp [SemigroupOp.apply, SemigroupOp.neutral, worth, read, Part.value, Reading.byPlaces]

/-- The parts of an expression, and what they have together under every assignment. -/
structure Resolves (width : Nat) (op : SemigroupOp) (e : Expr) (parts : List Part) : Prop where
  comprises : Comprises op e parts
  independent : Independent op parts
  total : ∀ env, op.total (parts.map (Part.value env)) =
    op.seen (e.worth (.byPlaces width env) op.place)

theorem independent_singleton {p : Part} (hfits : p.Fits op)
    (hseen : ∀ v, p = .constant v → op.seen v = v) (hne : p ≠ .constant op.neutral) :
    Independent op [p] where
  nodup := List.nodup_singleton p
  fits q hq := by rwa [List.mem_singleton.mp hq]
  constant_unique v w hv hw := by
    cases List.mem_singleton.mp hv
    cases List.mem_singleton.mp hw
    rfl
  constant_seen v hv := by
    cases List.mem_singleton.mp hv
    exact ⟨hseen v rfl, fun heq => hne (congrArg Part.constant heq)⟩
  coefficient_unique c d name hc hd := by
    cases List.mem_singleton.mp hc
    cases List.mem_singleton.mp hd
    rfl
  not_absorbs v c name hv hc := by
    cases List.mem_singleton.mp hv
    cases List.mem_singleton.mp hc

theorem Monomial.exists_resolves (h : Monomial op e)
    (hd : ∀ env, e.Defined (.byPlaces width env) op.place)
    (hseen : ∀ v, e = .int v → op.seen v = v) : ∃ parts, Resolves width op e parts := by
  obtain ⟨p, rfl, hfits, hvalue⟩ := h.exists_part hd
  by_cases hp : p = .constant op.neutral
  · subst hp
    refine ⟨[], .neutral, ⟨.nil, nofun, nofun, nofun, nofun, nofun⟩, fun env => ?_⟩
    rw [hvalue env]
    exact (SemigroupOp.seen_neutral op).symm
  · refine ⟨[p], .part hp, independent_singleton hfits ?_ hp, fun env => ?_⟩
    · rintro v rfl
      exact hseen v rfl
    · rw [hvalue env]
      rfl

theorem HasFactor.expr_monomial {c : Int} {name : String} :
    (Part.monomial c name).expr.HasFactor .mul (.symbol name) := by
  refine ⟨rfl, ?_⟩
  rw [Part.expr]
  split
  · exact Or.inl rfl
  · exact Or.inr ⟨_, rfl, List.mem_cons_of_mem _ List.mem_cons_self⟩

end Expr

theorem Part.expr_monomial_inj {c d : Int} {name : String}
    (h : (Part.monomial c name).expr = (Part.monomial d name).expr) : c = d := by
  simp only [expr] at h
  split at h <;> split at h <;> simp_all [Expr.scaled]

namespace Expr

variable {op : SemigroupOp} {width : Nat} {e : Expr} {terms : Bag}

/-- What reduction leaves of the operands are independent parts. -/
theorem independent_of_reducedTerms {parts : List Part} (h : ReducedTerms op terms)
    (hlogical : op ≠ .and) (hkeys : Bag.keys terms = parts.map Part.expr)
    (hfits : ∀ p ∈ parts, p.Fits op) : Independent op parts := by
  have hmem {p : Part} (hp : p ∈ parts) : p.expr ∈ Bag.keys terms := hkeys ▸ List.mem_map_of_mem hp
  have hvalid {v : Int} (hv : Part.constant v ∈ parts) : ¬ op.Absorbs (.int v) ∧
      v ≠ op.neutral := by
    refine ⟨h.not_absorbs _ (hmem hv), fun hneutral => ?_⟩
    exact h.ne_identity _ (hmem hv) (by rw [hneutral, SemigroupOp.identity_eq])
  refine ⟨List.Nodup.of_map Part.expr (hkeys ▸ h.nodup), hfits, ?_, ?_, ?_, ?_⟩
  · intro v w hv hw
    have hsame := h.constant_unique _ _ (hmem hv) (hmem hw)
    cases hsame
    rfl
  · intro v hv
    obtain ⟨habsorbs, hne⟩ := hvalid hv
    refine ⟨?_, hne⟩
    cases op with
    | or =>
      have hzero : v = 0 := by
        simpa [SemigroupOp.Absorbs, Number.isTruthy, Number.isZero] using habsorbs
      exact (hne hzero).elim
    | and => exact (hlogical rfl).elim
    | add | mul | bitAnd | bitOr | bitXor => exact SemigroupOp.seen_of_isLogical_eq_false rfl v
  · intro c d name hc hd
    by_cases hadd : op = .add
    · subst hadd
      by_cases hsame : (Part.monomial c name).expr = (Part.monomial d name).expr
      · exact Part.expr_monomial_inj hsame
      · exact (h.unshared .mul rfl _ (hmem hc) _ (hmem hd) hsame (.symbol name)
          ⟨HasFactor.expr_monomial, HasFactor.expr_monomial⟩).elim
    · rw [(hfits _ hc).2 hadd, (hfits _ hd).2 hadd]
  · intro v c name hv _
    exact (hvalid hv).1

theorem exists_resolves_of_reducedTerms (h : ReducedTerms op terms) (hlogical : op ≠ .and)
    (hm : ∀ x ∈ Bag.keys terms, Monomial op x)
    (hd : ∀ env, (nary op terms).Defined (.byPlaces width env) op.place) :
    ∃ parts, Resolves width op (.nary op terms) parts := by
  have hdefined (x : Expr) (hx : x ∈ Bag.keys terms) (env : Assignment) :
      x.Defined (.byPlaces width env) op.place := (defined_nary_iff.mp (hd env)).2 x hx
  choose! part hexpr hfits hvalue using fun x hx => (hm x hx).exists_part (hdefined x hx)
  have hkeys : Bag.keys terms = ((Bag.keys terms).map part).map Part.expr := by
    rw [List.map_map]
    exact (List.map_id' _).symm.trans (List.map_congr_left hexpr)
  have hparts : ∀ p ∈ (Bag.keys terms).map part, p.Fits op := by
    intro p hp
    obtain ⟨x, hx, rfl⟩ := List.mem_map.mp hp
    exact hfits x hx
  refine ⟨_, .nary h.two_le_length h.count_eq_one hkeys,
    independent_of_reducedTerms h hlogical hkeys hparts, fun env => ?_⟩
  rw [worth_nary (hd env), SemigroupOp.seen_total, Bag.elements_eq_keys h.count_eq_one,
    List.map_map]
  exact congrArg op.total (List.map_congr_left fun x hx => (hvalue x hx env).symm)

end Expr

namespace Engine

open Symbolic.Expr

variable {engine : Engine} {parent : Option Operator} {op : SemigroupOp} {width : Nat} {r r' : Expr}

/-- A combination in normal form resolves into independent parts. -/
theorem NormalForm.exists_resolves (h : engine.NormalForm parent r)
    (hd : engine.registry = .default)
    (hw : r.WellFormed) (hop : op ≠ .mul) (hlogical : op ≠ .and) (hc : Combination op r)
    (hdefined : ∀ env, r.Defined (.byPlaces width env) op.place)
    (hseen : ∀ v, r = .int v → op.seen v = v) : ∃ parts, Resolves width op r parts := by
  by_cases hr : r.op? = some (.semigroup op)
  · obtain ⟨terms, rfl⟩ := Rules.isNary_iff.mp (decide_eq_true hr)
    have hreduced : ReducedTerms op terms := h.reduced hd hw
    refine exists_resolves_of_reducedTerms hreduced hlogical (fun x hx => ?_) hdefined
    have hm := multiple_of_not_nary (hc.of_mem_keys hop hx) (hreduced.flat x hx)
    exact ((normalForm_iff.mp h).2 x hx).monomial hd (hw.of_mem_children hx) hm
  · exact (h.monomial hd hw (multiple_of_not_nary hc hr)).exists_resolves hdefined hseen

/-- Combinations in normal form that have the same value under all assignments are the same. -/
theorem NormalForm.eq_of_values (h : engine.NormalForm parent r) (h' : engine.NormalForm parent r')
    (hd : engine.registry = .default) (hw : r.WellFormed) (hw' : r'.WellFormed) (hop : op ≠ .mul)
    (hlogical : op ≠ .and) (hc : Combination op r) (hc' : Combination op r')
    (hdefined : ∀ env, r.Defined (.byPlaces width env) op.place)
    (hdefined' : ∀ env, r'.Defined (.byPlaces width env) op.place)
    (hvalues : ∀ env, op.seen (r.worth (.byPlaces width env) op.place) =
      op.seen (r'.worth (.byPlaces width env) op.place))
    (hseen : ∀ v, r = .int v → op.seen v = v) (hseen' : ∀ v, r' = .int v → op.seen v = v) :
    r = r' := by
  obtain ⟨parts, hparts⟩ := h.exists_resolves hd hw hop hlogical hc hdefined hseen
  obtain ⟨parts', hparts'⟩ := h'.exists_resolves hd hw' hop hlogical hc' hdefined' hseen'
  refine hparts.comprises.eq_of_perm hparts'.comprises hw hw' ?_
  refine hparts.independent.perm_of_values hparts'.independent hop fun env => ?_
  rw [hparts.total, hparts'.total]
  exact hvalues env

end Engine
end Symbolic
