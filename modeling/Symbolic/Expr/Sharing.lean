import Symbolic.Expr.Order

/-! Expressions whose nodes are shared, and their heights without a second visit to a node. -/
namespace Symbolic

namespace Expr

/-- The expression at the end of a path, which numbers the children from zero. -/
def at? : Expr → List Nat → Option Expr
  | e, [] => some e
  | e, k :: path => e.children[k]?.bind (·.at? path)

theorem at?_append (e : Expr) (path below : List Nat) :
    e.at? (path ++ below) = (e.at? path).bind (·.at? below) := by
  induction path generalizing e with
  | nil => rfl
  | cons k path ih =>
    rw [List.cons_append, at?, at?, Option.bind_assoc]
    exact Option.bind_congr fun child _ => ih child

/-- A node of an expression, as a tree. -/
structure Node (e : Expr) where
  path : List Nat
  expr : Expr
  at_path : e.at? path = some expr

namespace Node

variable {e : Expr}

def root (e : Expr) : e.Node := ⟨[], e, rfl⟩

def child (n : e.Node) (k : Fin n.expr.children.length) : e.Node where
  path := n.path ++ [k.val]
  expr := n.expr.children[k]
  at_path := by simp [at?_append, n.at_path, at?]

def children (n : e.Node) : List e.Node := List.ofFn n.child

theorem map_children (n : e.Node) : n.children.map expr = n.expr.children := by
  rw [children, List.map_ofFn]
  exact List.ofFn_getElem

end Node
end Expr

/-- A presentation of expressions by nodes with identities. Any number of nodes may have one
identity, if they stand for the same expression. -/
structure Sharing (ν ι : Type) where
  expr : ν → Expr
  children : ν → List ν
  identity : ν → ι
  map_children : ∀ n, (children n).map expr = (expr n).children
  expr_eq : ∀ m n, identity m = identity n → expr m = expr n

namespace Sharing

variable {ν ι : Type}

/-- The nodes of a tree with identities given to them. -/
def ofIdentity {e : Expr} (identity : e.Node → ι)
    (h : ∀ m n, identity m = identity n → m.expr = n.expr) : Sharing e.Node ι where
  expr := Expr.Node.expr
  children := Expr.Node.children
  identity := identity
  map_children := Expr.Node.map_children
  expr_eq := h

/-- The heights known so far, by identity, and the nodes still to be done. A node is marked when its
children have been put above it. -/
structure Measurement (ν ι : Type) where
  heights : List (ι × Nat)
  stack : List (ν × Bool)

def start (root : ν) : Measurement ν ι := ⟨[], [(root, false)]⟩

variable [DecidableEq ι]

def known? (s : Sharing ν ι) (heights : List (ι × Nat)) (n : ν) : Option Nat :=
  heights.lookup (s.identity n)

/-- One more than the greatest of the known heights of the children. -/
def heightAbove (s : Sharing ν ι) (heights : List (ι × Nat)) (n : ν) : Nat :=
  ((s.children n).filterMap (s.known? heights)).foldl max 0 + 1

/-- Takes the node on top: nothing is left to do for a measured one, an atom or a marked node is
measured, and any other node is marked and put back below its children. -/
def step (s : Sharing ν ι) (m : Measurement ν ι) : Measurement ν ι :=
  match m.stack with
  | [] => m
  | (n, marked) :: rest =>
    if (s.known? m.heights n).isSome then { m with stack := rest }
    else if (s.expr n).isAtomic then ⟨(s.identity n, 1) :: m.heights, rest⟩
    else if marked then ⟨(s.identity n, s.heightAbove m.heights n) :: m.heights, rest⟩
    else { m with stack := (s.children n).reverse.map (·, false) ++ (n, true) :: rest }

def steps (s : Sharing ν ι) : Nat → Measurement ν ι → Measurement ν ι
  | 0, m => m
  | count + 1, m => s.steps count (s.step m)

/-- The height of the root, or one where it is not known. -/
def result (s : Sharing ν ι) (root : ν) (m : Measurement ν ι) : Nat :=
  (s.known? m.heights root).getD 1

/-- The height of a node. Each node of the tree is on top of the stack twice at most. -/
def depth (s : Sharing ν ι) (root : ν) : Nat :=
  s.result root (s.steps (2 * (s.expr root).size) (start root))

end Sharing
end Symbolic
