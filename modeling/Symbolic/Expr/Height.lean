import Std.Data.HashMap
import Symbolic.Expr.Order

/-! Heights of expressions whose subtrees may be shared in memory: a bound on the height that stops
at the first path beyond it, and the height itself with one visit to each shared subtree. -/
namespace Symbolic

namespace Expr

mutual

/-- Whether the height is above a bound. -/
def deeperThan : Expr → Nat → Bool
  | _, 0 => true
  | .constant _, _ + 1 | .symbol _, _ + 1 => false
  | .nary _ terms, limit + 1 => anyTermDeeper terms limit
  | .unary _ arg, limit + 1 => arg.deeperThan limit
  | .binary _ lhs rhs, limit + 1 => lhs.deeperThan limit || rhs.deeperThan limit
  | .conditional test whenTrue whenFalse, limit + 1 =>
    test.deeperThan limit || (whenTrue.deeperThan limit || whenFalse.deeperThan limit)
  | .call callee args, limit + 1 => callee.deeperThan limit || anyArgDeeper args limit
termination_by structural e => e

def anyTermDeeper : List (Expr × Nat) → Nat → Bool
  | [], _ => false
  | (e, _) :: rest, limit => e.deeperThan limit || anyTermDeeper rest limit
termination_by structural terms => terms

def anyArgDeeper : List Expr → Nat → Bool
  | [], _ => false
  | e :: rest, limit => e.deeperThan limit || anyArgDeeper rest limit
termination_by structural args => args

end

theorem depth_pos (e : Expr) : 0 < e.depth := by
  cases e <;> rw [depth] <;> omega

mutual

theorem deeperThan_iff (e : Expr) (limit : Nat) : e.deeperThan limit = true ↔ limit < e.depth := by
  cases limit with
  | zero => simp only [deeperThan, depth_pos]
  | succ limit =>
    cases e with
    | constant | symbol =>
      simp only [deeperThan, depth, Bool.false_eq_true, false_iff]
      omega
    | nary op terms =>
      simp only [deeperThan, depth, anyTermDeeper_iff terms limit]
      omega
    | unary op arg =>
      simp only [deeperThan, depth, deeperThan_iff arg limit]
      omega
    | binary op lhs rhs =>
      simp only [deeperThan, depth, Bool.or_eq_true, deeperThan_iff lhs limit,
        deeperThan_iff rhs limit]
      omega
    | conditional test whenTrue whenFalse =>
      simp only [deeperThan, depth, Bool.or_eq_true, deeperThan_iff test limit,
        deeperThan_iff whenTrue limit, deeperThan_iff whenFalse limit]
      omega
    | call callee args =>
      simp only [deeperThan, depth, Bool.or_eq_true, deeperThan_iff callee limit,
        anyArgDeeper_iff args limit]
      omega
termination_by structural e

theorem anyTermDeeper_iff (terms : List (Expr × Nat)) (limit : Nat) :
    anyTermDeeper terms limit = true ↔ limit < depthTerms terms := by
  match terms with
  | [] =>
    simp only [anyTermDeeper, depthTerms, Bool.false_eq_true, false_iff]
    omega
  | (e, _) :: rest =>
    simp only [anyTermDeeper, depthTerms, Bool.or_eq_true, deeperThan_iff e limit,
      anyTermDeeper_iff rest limit]
    omega
termination_by structural terms

theorem anyArgDeeper_iff (args : List Expr) (limit : Nat) :
    anyArgDeeper args limit = true ↔ limit < depthArgs args := by
  match args with
  | [] =>
    simp only [anyArgDeeper, depthArgs, Bool.false_eq_true, false_iff]
    omega
  | e :: rest =>
    simp only [anyArgDeeper, depthArgs, Bool.or_eq_true, deeperThan_iff e limit,
      anyArgDeeper_iff rest limit]
    omega
termination_by structural args

end
end Expr

/-- An expression with its height. -/
structure Measured where
  expr : Expr
  height : Nat
  height_eq : height = expr.depth

/-- The heights found so far, by address. An address means nothing, so that nothing may depend on
what the table holds. -/
abbrev Heights := Squash (Std.HashMap USize Measured)

/-- A height that its type names, and the table that finding it leaves. -/
abbrev Found (height : Nat) := { found : Nat // found = height } × Heights

instance (height : Nat) : Subsingleton (Found height) where
  allEq := fun ⟨⟨_, ha⟩, _⟩ ⟨⟨_, hb⟩, _⟩ =>
    Prod.ext (Subtype.ext (ha.trans hb.symm)) (Subsingleton.elim _ _)

namespace Found

def now (height : Nat) (heights : Heights) : Found height := (⟨height, rfl⟩, heights)

def succ {m : Nat} : Found m → Found (m + 1)
  | (⟨found, h⟩, heights) => (⟨found + 1, by rw [h]⟩, heights)

/-- The greater of two heights, the second found with the table that the first leaves. -/
def max {m n : Nat} (first : Found m) (second : Heights → Found n) : Found (Max.max m n) :=
  match first with
  | (⟨a, ha⟩, heights) =>
    match second heights with
    | (⟨b, hb⟩, heights) => (⟨Max.max a b, by rw [ha, hb]⟩, heights)

end Found

namespace Expr

/-- The height that the table has for the address of an expression, or else the one that is found
and entered there. -/
def recalledHeight (e : Expr) (find : Heights → Found e.depth) (heights : Heights) :
    Found e.depth :=
  withPtrAddr e
    (fun address => heights.lift fun table =>
      match table[address]? with
      | some known => if h : known.expr = e then (⟨known.height, h ▸ known.height_eq⟩, heights)
        else find heights
      | none =>
        match find heights with
        | (⟨found, h⟩, heights) =>
          (⟨found, h⟩, heights.lift fun table => .mk (table.insert address ⟨e, found, h⟩)))
    fun _ _ => Subsingleton.elim _ _

mutual

def findHeight : (e : Expr) → Heights → Found e.depth
  | .constant _ => Found.now 1
  | .symbol _ => Found.now 1
  | .nary op terms => recalledHeight (.nary op terms) fun heights =>
    (findTermHeight terms heights).succ
  | .unary op arg => recalledHeight (.unary op arg) fun heights => (findHeight arg heights).succ
  | .binary op lhs rhs => recalledHeight (.binary op lhs rhs) fun heights =>
    ((findHeight lhs heights).max (findHeight rhs)).succ
  | .conditional test whenTrue whenFalse =>
    recalledHeight (.conditional test whenTrue whenFalse) fun heights =>
      ((findHeight test heights).max fun heights =>
        (findHeight whenTrue heights).max (findHeight whenFalse)).succ
  | .call callee args => recalledHeight (.call callee args) fun heights =>
    ((findHeight callee heights).max (findArgHeight args)).succ
termination_by structural e => e

def findTermHeight : (terms : List (Expr × Nat)) → Heights → Found (depthTerms terms)
  | [] => Found.now 0
  | (e, _) :: rest => fun heights => (findHeight e heights).max (findTermHeight rest)
termination_by structural terms => terms

def findArgHeight : (args : List Expr) → Heights → Found (depthArgs args)
  | [] => Found.now 0
  | e :: rest => fun heights => (findHeight e heights).max (findArgHeight rest)
termination_by structural args => args

end

/-- The height, found in time linear in the memory that the expression takes. -/
def height (e : Expr) : Nat := (e.findHeight (.mk ∅)).1

theorem height_eq_depth (e : Expr) : e.height = e.depth := (e.findHeight (.mk ∅)).1.2

end Expr
end Symbolic
