import Symbolic.Tree.Construction

/-! What the class of an operator asks of the way that children are kept, and all that may be built
out of given trees. -/
namespace Symbolic

namespace Entries

/-- Keys strictly increase, and each occurs. -/
def InOrder {κ : Type} [Ord κ] (entries : Entries κ) : Prop :=
  entries.Pairwise (fun a b => compare a.1 b.1 = .lt) ∧ ∀ entry ∈ entries, 1 ≤ entry.2

/-- The multisets that the operations on multisets make of given keys. -/
inductive MadeOf {κ : Type} [Ord κ] (p : κ → Prop) : Entries κ → Prop
  | empty : MadeOf p []
  | insertMany {key : κ} {count : Nat} {entries entries' : Entries κ} (hp : p key)
      (h : MadeOf p entries) (hi : insertMany? key count entries = some entries') :
      MadeOf p entries'
  | removeOne {entries : Entries κ} (key : κ) (h : MadeOf p entries) :
      MadeOf p (removeOne key entries)
  | matching {q : κ → Nat → Bool} {entries : Entries κ} {parts : Entries κ × Entries κ}
      (h : MadeOf p entries) (hq : partition? entries q = some parts) : MadeOf p parts.1
  | rest {q : κ → Nat → Bool} {entries : Entries κ} {parts : Entries κ × Entries κ}
      (h : MadeOf p entries) (hq : partition? entries q = some parts) : MadeOf p parts.2

end Entries

namespace Tree

/-- The node keeps its children as the class of its operator asks: a semigroup operator in a
multiset, a unary one in a single place, and the others in as many places as they take. -/
def StorageFits : Tree → Prop
  | .constant _ | .symbol _ => True
  | .multiset op terms => op.operatorClass = .semigroup ∧ Entries.InOrder terms
  | .single op _ => op.operatorClass = .unary
  | .ordered op children =>
    match op.operatorClass with
    | .semigroup | .unary => False
    | .binary => children.length = 2
    | .ternary => children.length = 3
    | .variadic => 1 ≤ children.length

/-- At every node the storage fits the operator. -/
inductive WellFormed : Tree → Prop
  | node {t : Tree} (h : t.StorageFits) (hc : ∀ c ∈ t.children, WellFormed c) : WellFormed t

/-- What is built, if it is, out of trees with a property: of an operator, of a multiset, by a named
constructor, or by replacing the children of a tree by such trees. What replaces them may keep a
state of its own, and may fail. -/
inductive BuiltFrom (p : Tree → Prop) : Tree → Prop
  | constant (value : Number) : BuiltFrom p (.constant value)
  | symbol (name : String) : BuiltFrom p (.symbol name)
  | operation {op : Operator} {children : List Tree} {t : Tree} (hc : ∀ c ∈ children, p c)
      (h : operation op children = .ok t) : BuiltFrom p t
  | ofMultiset {op : Operator} {terms : Entries Tree} {t : Tree} (hm : Entries.MadeOf p terms)
      (h : ofMultiset op terms = .ok t) : BuiltFrom p t
  | pair {op : SemigroupOp} {lhs rhs t : Tree} (hl : p lhs) (hr : p rhs)
      (h : pair op lhs rhs = .ok t) : BuiltFrom p t
  | neg {arg t : Tree} (ha : p arg) (h : neg arg = .ok t) : BuiltFrom p t
  | sub {lhs rhs t : Tree} (hl : p lhs) (hr : p rhs) (h : sub lhs rhs = .ok t) : BuiltFrom p t
  | shl {lhs rhs t : Tree} (hl : p lhs) (hr : p rhs) (h : shl lhs rhs = .ok t) : BuiltFrom p t
  | unary (op : UnaryOp) {arg : Tree} (ha : p arg) : BuiltFrom p (unary op arg)
  | binary (op : BinaryOp) {lhs rhs : Tree} (hl : p lhs) (hr : p rhs) :
      BuiltFrom p (binary op lhs rhs)
  | cmpGt {lhs rhs : Tree} (hl : p lhs) (hr : p rhs) : BuiltFrom p (cmpGt lhs rhs)
  | cmpGe {lhs rhs : Tree} (hl : p lhs) (hr : p rhs) : BuiltFrom p (cmpGe lhs rhs)
  | conditional {test whenTrue whenFalse : Tree} (h : p test) (ht : p whenTrue) (hf : p whenFalse) :
      BuiltFrom p (conditional test whenTrue whenFalse)
  | call {callee : Tree} {args : List Tree} (h : p callee) (ha : ∀ arg ∈ args, p arg) :
      BuiltFrom p (call callee args)
  | mapChildren {σ ε : Type} {f : Tree → StateT σ (ExceptT ε Attempt) Tree} {t t' : Tree} {s s' : σ}
      (ht : p t) (hf : ∀ c ∈ t.children, ∀ s image s', f c s = .ok (.ok (image, s')) → p image)
      (h : t.mapChildren f s = .ok (.ok (t', s'))) : BuiltFrom p t'

end Tree
end Symbolic
