import Symbolic.Proofs.ValuePreserved
import Symbolic.Proofs.WellStored

/-! The named constructors stand for what they are named after, those too that have no operator of
their own, and simplification leaves it so. -/
namespace Symbolic

-- The powers are those of the core library, as in the definitions.
attribute [local instance (1100)] instPowNat

/-- What stands on one side of a named constructor: an expression, or a machine integer. -/
inductive Operand
  | expr (e : Expr)
  | integer (value : Int64)

def Operand.toExpr : Operand → Expr
  | .expr e => e
  | .integer value => .int value.toInt

/-- The named constructors of two operands. The first four have no operator of their own. -/
inductive Builder
  | sub | shl | gt | ge
  | semigroup (op : SemigroupOp)
  | binary (op : BinaryOp)

namespace Builder

def build : Builder → Expr → Expr → Expr
  | .sub => Expr.sub
  | .shl => Expr.shl
  | .gt => Expr.cmpGt
  | .ge => Expr.cmpGe
  | .semigroup op => Expr.pair op
  | .binary op => Expr.binary op

/-- What is meant, of the integers that the operands stand for. A negative shift has no result. -/
def result? (width : Nat) : Builder → Int → Int → Option Int
  | .sub, x, y => some (x - y)
  | .shl, x, y => if 0 ≤ y then some (x * 2 ^ y.toNat) else none
  | .gt, x, y => some (truth (x > y))
  | .ge, x, y => some (truth (x ≥ y))
  | .semigroup op, x, y => some (op.apply x y)
  | .binary op, x, y => op.result? width x y

def all : List Builder :=
  [.sub, .shl, .semigroup .add, .semigroup .mul, .semigroup .bitAnd, .semigroup .bitOr,
    .semigroup .bitXor, .semigroup .and, .semigroup .or, .binary .trueDiv, .binary .floorDiv,
    .binary .mod, .binary .pow, .binary .shr, .binary .rol, .binary .ror, .binary .eq, .binary .ne,
    .binary .lt, .binary .le, .gt, .ge]

theorem mem_all (builder : Builder) : builder ∈ all := by
  cases builder with
  | sub | shl | gt | ge => simp [all]
  | semigroup op => cases op <;> simp [all]
  | binary op => cases op <;> simp [all]

theorem build_mem_binaryBuilders (builder : Builder) : builder.build ∈ Expr.binaryBuilders :=
  List.mem_map_of_mem (f := build) (mem_all builder)

end Builder

namespace Expr

variable {width : Nat} {env : Assignment} {a b : Expr} {op : SemigroupOp} {reading : Reading}
  {place : Place}

theorem defined_of_defined_pair (h : (pair op a b).Defined reading place) :
    a.Defined reading op.place ∧ b.Defined reading op.place := by
  have hkeys := (defined_nary_iff.mp h).2
  exact ⟨hkeys a (Bag.mem_keys_ofList.mpr List.mem_cons_self),
    hkeys b (Bag.mem_keys_ofList.mpr (List.mem_cons_of_mem _ List.mem_cons_self))⟩

/-- A pair stands for its operator on its operands, which are one of multiplicity two if they are
equal. -/
theorem value?_pair (op : SemigroupOp) (a b : Expr) : (pair op a b).value? width env =
    (a.value? width env).bind fun x => (b.value? width env).bind fun y => some (op.apply x y) := by
  rw [← read_exact width env .value, ← read_exact width env op.place a,
    ← read_exact width env op.place b]
  by_cases hd : a.Defined ⟨width, env, false, false⟩ op.place ∧
      b.Defined ⟨width, env, false, false⟩ op.place
  · rw [read_pair rfl hd.1 hd.2, hd.1.read, hd.2.read]
    rfl
  · have hnone : (pair op a b).read ⟨width, env, false, false⟩ .value = none :=
      Option.not_isSome_iff_eq_none.mp fun h => hd (defined_of_defined_pair h)
    rw [hnone]
    cases ha : a.read ⟨width, env, false, false⟩ op.place with
    | none => rfl
    | some x =>
      have hb : b.read ⟨width, env, false, false⟩ op.place = none :=
        Option.not_isSome_iff_eq_none.mp fun hb => hd ⟨defined_of_read ha, hb⟩
      rw [hb]
      rfl

theorem value?_neg (a : Expr) : (neg a).value? width env = (a.value? width env).map (- ·) := by
  rw [neg, mul, value?_pair]
  cases a.value? width env with
  | none => rfl
  | some x => exact congrArg some (Int.mul_neg_one x)

theorem value?_binary (op : BinaryOp) (a b : Expr) : (binary op a b).value? width env =
    (a.value? width env).bind fun x => (b.value? width env).bind (op.result? width x) := by
  rw [value?]

/-- Comparing the other way round is comparing swapped operands. -/
theorem value?_swapped {op : BinaryOp} {f : Int → Int → Int} (a b : Expr)
    (hf : ∀ x y, op.result? width y x = some (f x y)) : (binary op b a).value? width env =
      (a.value? width env).bind fun x => (b.value? width env).bind fun y => some (f x y) := by
  rw [value?_binary]
  cases a.value? width env <;> cases b.value? width env <;> simp [hf]

theorem value?_build (builder : Builder) (a b : Expr) : (builder.build a b).value? width env =
    (a.value? width env).bind fun x => (b.value? width env).bind (builder.result? width x) := by
  cases builder with
  | sub =>
    rw [Builder.build, sub, add, value?_pair, value?_neg]
    cases a.value? width env <;> cases b.value? width env <;> rfl
  | shl =>
    rw [Builder.build, shl, mul, value?_pair, pow, value?_binary]
    cases a.value? width env with
    | none => rfl
    | some x =>
      cases b.value? width env with
      | none => rfl
      | some y =>
        by_cases hy : y < 0
        · simp [BinaryOp.result?, Builder.result?, int, value?, hy]
        · simp [BinaryOp.result?, Builder.result?, int, value?, hy, SemigroupOp.apply]
  | gt => exact value?_swapped a b fun _ _ => rfl
  | ge => exact value?_swapped a b fun _ _ => rfl
  | semigroup op => exact value?_pair op a b
  | binary op => exact value?_binary op a b

end Expr

namespace Engine

open Rules Symbolic.Expr

variable {width : Nat} {env : Assignment} {a b : Operand} {e : Expr} {v : Int}

/-- Whatever an expression without `&&` and `||` simplifies to, by the default rules and over words
of `width` bits, stands for the integer. -/
def SimplifiedIs (width : Nat) (env : Assignment) (e : Expr) (v : Int) : Prop :=
  e.Arithmetic → ∀ config o, config.wordBits = width → simplifyWith .default config e = .ok o →
    o.expr.value? width env = some v

theorem simplifiedIs_of_value? (hw : e.WellFormed) (hv : e.value? width env = some v) :
    SimplifiedIs width env e v := by
  rintro ha config o rfl h
  obtain ⟨reach, steps, hran⟩ := ran_of_simplifyWith_eq_ok h
  exact (hran.normalizes.keeps rfl (legal_isExact_iff.mpr ⟨hw, ha⟩)).1 v hv

/-- A difference, a negation, a left shift and the comparisons with greater have no operator of
their own. What is built for them stands for what they are, as all else that is built of two
operands does, and so does what it simplifies to. -/
theorem built_stands_for_result (ha : a.toExpr.WellFormed) (hb : b.toExpr.WellFormed) :
    (∀ x, a.toExpr.value? width env = some x →
      (neg a.toExpr).value? width env = some (-x) ∧ SimplifiedIs width env (neg a.toExpr) (-x)) ∧
    ∀ (builder : Builder) x y, a.toExpr.value? width env = some x →
      b.toExpr.value? width env = some y →
      (builder.build a.toExpr b.toExpr).value? width env = builder.result? width x y ∧
      ∀ v, builder.result? width x y = some v →
        SimplifiedIs width env (builder.build a.toExpr b.toExpr) v := by
  constructor
  · intro x hx
    have hneg : (neg a.toExpr).value? width env = some (-x) := by rw [value?_neg, hx]; rfl
    exact ⟨hneg, simplifiedIs_of_value? (wellFormed_neg ha) hneg⟩
  · intro builder x y hx hy
    have hbuilt : (builder.build a.toExpr b.toExpr).value? width env =
        builder.result? width x y := by
      rw [value?_build, hx, hy]
      rfl
    have hw : (builder.build a.toExpr b.toExpr).WellFormed :=
      wellFormed_of_mem_binaryBuilders builder.build_mem_binaryBuilders ha hb
    exact ⟨hbuilt, fun v hv => simplifiedIs_of_value? hw (hbuilt.trans hv)⟩

/-- `-x - x` is `x * -1` twice, and `3 << x` has an integer on its left. Where `x` is 5 they are -10
and 96. -/
theorem built_stands_for_result_of_merged_operands :
    let x := symbol "x"
    let env : Assignment := fun _ => 5
    let difference := sub (neg x) x
    difference = .nary .add [(neg x, 2)] ∧ difference.value? 32 env = some (-10) ∧
      (simplifyWith .default {} difference).toOption.isSome = true ∧
      (∀ o, simplifyWith .default {} difference = .ok o → o.expr.value? 32 env = some (-10)) ∧
      (shl (Operand.integer 3).toExpr x).value? 32 env = some 96 := by
  intro x env difference
  have hx : (Operand.expr x).toExpr.WellFormed := by decide
  have hneg : (Operand.expr (neg x)).toExpr.WellFormed := by decide
  have hthree : (Operand.integer 3).toExpr.WellFormed := by decide
  have hfive : (Operand.expr x).toExpr.value? 32 env = some 5 := rfl
  have hminusFive : (Operand.expr (neg x)).toExpr.value? 32 env = some (-5) := rfl
  have hleft : (Operand.integer 3).toExpr.value? 32 env = some 3 := rfl
  obtain ⟨_, hdifference⟩ := built_stands_for_result hneg hx
  obtain ⟨_, hshift⟩ := built_stands_for_result hthree hx
  obtain ⟨hvalue, hsimplified⟩ := hdifference .sub (-5) 5 hminusFive hfive
  obtain ⟨hshifted, _⟩ := hshift .shl 3 5 hleft hfive
  have hmerged : difference = .nary .add [(neg x, 2)] := by rfl
  have harithmetic : difference.Arithmetic := by decide
  have hok : (simplifyWith .default {} difference).toOption.isSome = true := by decide +kernel
  exact ⟨hmerged, hvalue, hok, fun o => hsimplified (-10) rfl harithmetic {} o rfl,
    hshifted.trans rfl⟩

end Engine
end Symbolic
