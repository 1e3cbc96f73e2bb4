import Symbolic.Expr.Order

/-! Multisets of expressions, kept as strictly increasing keys with multiplicities. -/
namespace Symbolic.Bag

/-- Adds a positive number of occurrences. -/
def insertPositive (e : Expr) (count : Nat) : Bag → Bag
  | [] => [(e, count)]
  | (key, n) :: rest =>
    if e = key then (key, n + count) :: rest
    else if compare e key = .lt then (e, count) :: (key, n) :: rest
    else (key, n) :: insertPositive e count rest

/-- Adds `count` occurrences; none leaves the multiset as it is. -/
def insertMany (e : Expr) (count : Nat) (bag : Bag) : Bag :=
  if count = 0 then bag else insertPositive e count bag

def insert (e : Expr) (bag : Bag) : Bag := insertMany e 1 bag

/-- Adds expressions one after the other. -/
def extend (bag : Bag) (es : List Expr) : Bag := es.foldl (fun b e => insert e b) bag

/-- Adds entries one after the other. -/
def merge (bag : Bag) (entries : List (Expr × Nat)) : Bag :=
  entries.foldl (fun b entry => insertMany entry.1 entry.2 b) bag

def ofList (es : List Expr) : Bag := extend [] es
def ofEntries (entries : List (Expr × Nat)) : Bag := merge [] entries

/-- Removes one occurrence, if there is one. -/
def removeOne (e : Expr) : Bag → Bag
  | [] => []
  | (key, n) :: rest =>
    if e = key then if 1 < n then (key, n - 1) :: rest else rest
    else (key, n) :: removeOne e rest

/-- The multiplicity, zero for an expression that does not occur. -/
def count (e : Expr) : Bag → Nat
  | [] => 0
  | (key, n) :: rest => if e = key then n else count e rest

def contains (e : Expr) (bag : Bag) : Bool := bag.any fun entry => entry.1 = e

def keys (bag : Bag) : List Expr := bag.map Prod.fst

/-- The sum of all multiplicities. -/
def total : Bag → Nat
  | [] => 0
  | (_, n) :: rest => n + total rest

def anyEntry (bag : Bag) (p : Expr → Nat → Bool) : Bool := bag.any fun entry => p entry.1 entry.2

/-- The entries that satisfy a predicate, and the rest. -/
def split (bag : Bag) (p : Expr → Nat → Bool) : Bag × Bag :=
  bag.partition fun entry => p entry.1 entry.2

end Symbolic.Bag
