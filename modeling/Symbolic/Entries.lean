import Symbolic.Number.Arithmetic

/-! Multisets as they are kept: keys in increasing order, each with a count in a machine word. What
a machine word cannot hold is `none`. -/
namespace Symbolic

/-- The sum of two machine words, if a machine word holds it. -/
def wordSum? (a b : Nat) : Option Nat := if a + b < wordCount then some (a + b) else none

/-- Keys with their counts. Every search goes by the order of the keys and by nothing else. -/
abbrev Entries (κ : Type) := List (κ × Nat)

namespace Entries

variable {κ : Type} [Ord κ]

/-- Adds to the count of a key, which is entered at its place if it is not there. -/
def add? (key : κ) (count : Nat) : Entries κ → Option (Entries κ)
  | [] => (wordSum? 0 count).map fun sum => [(key, sum)]
  | (other, n) :: rest =>
    match compare key other with
    | .lt => (wordSum? 0 count).map fun sum => (key, sum) :: (other, n) :: rest
    | .eq => (wordSum? n count).map fun sum => (other, sum) :: rest
    | .gt => (add? key count rest).map fun rest => (other, n) :: rest

/-- Adds `count` occurrences; none leaves the multiset as it is. -/
def insertMany? (key : κ) (count : Nat) (entries : Entries κ) : Option (Entries κ) :=
  if 0 < count then add? key count entries else some entries

def insert? (key : κ) (entries : Entries κ) : Option (Entries κ) := insertMany? key 1 entries

/-- Adds keys one after the other. -/
def extend? (entries : Entries κ) (keys : List κ) : Option (Entries κ) :=
  keys.foldlM (fun entries key => insert? key entries) entries

/-- Adds entries one after the other. -/
def merge? (entries more : Entries κ) : Option (Entries κ) :=
  more.foldlM (fun entries entry => insertMany? entry.1 entry.2 entries) entries

def ofList? (keys : List κ) : Option (Entries κ) := extend? [] keys

def find? (key : κ) : Entries κ → Option Nat
  | [] => none
  | (other, n) :: rest =>
    match compare key other with
    | .lt => none
    | .eq => some n
    | .gt => find? key rest

/-- The multiplicity, zero for a key that does not occur. -/
def count (key : κ) (entries : Entries κ) : Nat := (find? key entries).getD 0

def contains (key : κ) (entries : Entries κ) : Bool := (find? key entries).isSome

/-- Removes one occurrence, if there is one. -/
def removeOne (key : κ) : Entries κ → Entries κ
  | [] => []
  | (other, n) :: rest =>
    match compare key other with
    | .lt => (other, n) :: rest
    | .eq => if 1 < n then (other, n - 1) :: rest else rest
    | .gt => (other, n) :: removeOne key rest

def keys {κ : Type} (entries : Entries κ) : List κ := entries.map Prod.fst

/-- The sum of all multiplicities. -/
def total? {κ : Type} (entries : Entries κ) : Option Nat :=
  entries.foldlM (fun sum entry => wordSum? sum entry.2) 0

/-- The only entry, if there is exactly one. -/
def single? {κ : Type} : Entries κ → Option (κ × Nat)
  | [entry] => some entry
  | _ => none

def any {κ : Type} (entries : Entries κ) (p : κ → Nat → Bool) : Bool :=
  List.any entries fun entry => p entry.1 entry.2

/-- One entry more in one of two multisets. -/
def deal? (p : κ → Nat → Bool) (parts : Entries κ × Entries κ) (entry : κ × Nat) :
    Option (Entries κ × Entries κ) :=
  if p entry.1 entry.2 then
    (insertMany? entry.1 entry.2 parts.1).map fun matching => (matching, parts.2)
  else (insertMany? entry.1 entry.2 parts.2).map fun rest => (parts.1, rest)

/-- The entries that satisfy a predicate, and the rest, inserted one after the other. -/
def partition? (entries : Entries κ) (p : κ → Nat → Bool) : Option (Entries κ × Entries κ) :=
  entries.foldlM (deal? p) ([], [])

end Entries
end Symbolic
