import Symbolic.Binary64.Basic

/-! Decimal text of doubles: reading to the nearest, writing the fewest digits that read back. -/
namespace Symbolic.Binary64

-- The powers are those of the core library, whichever modules stand beside this one.
attribute [local instance (1100)] instPowNat

/-- The double nearest to `digits * 10 ^ exponent`. Exponents beyond every double are cut short,
which keeps the powers small. -/
def ofDecimal (negative : Bool) (digits : Nat) (exponent : Int) : Binary64 :=
  let length : Int := (Nat.toDigits 10 digits).length
  if digits = 0 || length + exponent < -330 then ofParts negative 0
  else if 400 < length + exponent then infinity negative
  else if 0 ≤ exponent then ofQuotient negative (digits * 10 ^ exponent.toNat * unitsPerOne) 1
  else ofQuotient negative (digits * unitsPerOne) (10 ^ (-exponent).toNat)

def digitsToNat (digits : List Char) : Nat :=
  digits.foldl (fun n c => 10 * n + (c.toNat - '0'.toNat)) 0

/-- An exponent: an optional sign and at least one digit. -/
def readExponent? : List Char → Option Int
  | '-' :: ds => if !ds.isEmpty && ds.all Char.isDigit then some (-(digitsToNat ds : Int)) else none
  | '+' :: ds => if !ds.isEmpty && ds.all Char.isDigit then some (digitsToNat ds) else none
  | ds => if !ds.isEmpty && ds.all Char.isDigit then some (digitsToNat ds) else none

/-- Digits with an optional point among them and an optional exponent. -/
def readUnsigned? (negative : Bool) (text : List Char) : Option Binary64 := do
  let whole := text.takeWhile Char.isDigit
  let rest := text.dropWhile Char.isDigit
  let (fraction, rest) := match rest with
    | '.' :: rest => (rest.takeWhile Char.isDigit, rest.dropWhile Char.isDigit)
    | rest => ([], rest)
  guard !(whole ++ fraction).isEmpty
  let exponent ← match rest with
    | [] => some 0
    | c :: rest => if c = 'e' || c = 'E' then readExponent? rest else none
  some (ofDecimal negative (digitsToNat (whole ++ fraction)) (exponent - fraction.length))

def readMagnitude? (negative : Bool) (text : List Char) : Option Binary64 :=
  match String.ofList (text.map Char.toLower) with
  | "inf" | "infinity" => some (infinity negative)
  | "nan" => some (if negative then nan.negate else nan)
  | _ => readUnsigned? negative text

/-- The double nearest to the number that a text names. -/
def ofText? (text : String) : Option Binary64 :=
  match text.toList with
  | '-' :: rest => readMagnitude? true rest
  | '+' :: rest => readMagnitude? false rest
  | rest => readMagnitude? false rest

/-- The numbers that round to a double lie between two bounds, counted in quarter units. Below a
power of two the next double is half as far away as above it. -/
structure Interval where
  low : Nat
  high : Nat
  /-- Both bounds are halfway cases, and they round to the double iff its pattern is even. -/
  closed : Bool

def interval (x : Binary64) : Interval :=
  let exponent := x.magnitude / 2 ^ (52 : Nat)
  let gap := 2 ^ (exponent - 1)
  let below := if x.magnitude % 2 ^ (52 : Nat) = 0 && 1 < exponent then gap else 2 * gap
  ⟨4 * x.units - below, 4 * x.units + 2 * gap, x.magnitude % 2 = 0⟩

/-- Whether `num / den` quarter units lie in the interval. -/
def Interval.contains (i : Interval) (num den : Nat) : Bool :=
  if i.closed then decide (i.low * den ≤ num ∧ num ≤ i.high * den)
  else decide (i.low * den < num ∧ num < i.high * den)

/-- The number of digits before the point; zero or less for a number below a tenth. -/
def pointPosition (x : Binary64) : Int :=
  let guess : Int := ((x.units.log2 : Int) - 1074) * 30103 / 100000
  let below (k : Int) : Bool :=
    if 0 ≤ k then decide (x.units < 10 ^ k.toNat * unitsPerOne)
    else decide (x.units * 10 ^ (-k).toNat < unitsPerOne)
  match [guess - 1, guess, guess + 1, guess + 2].find? below with
  | some k => k
  | none => guess + 3

/-- The multiple of `10 ^ exponent` that reads back as the double, if one does. Of two the nearer
is taken, and the upper one of two equally near. -/
def onGrid? (x : Binary64) (exponent : Int) : Option Nat :=
  let up := 10 ^ exponent.toNat
  let down := 10 ^ (-exponent).toNat
  let num := x.units * down
  let den := unitsPerOne * up
  let hit (n : Nat) : Bool := x.interval.contains (4 * n * den) down
  let lower := num / den
  let nearer := if 2 * (num % den) < den then lower else lower + 1
  if hit nearer then some nearer
  else [lower, lower + 1].find? hit

def dropZeros : List Char → List Char
  | [] => []
  | c :: cs =>
    match dropZeros cs with
    | [] => if c = '0' then [] else [c]
    | ds => c :: ds

/-- The digits of the shortest decimal that reads back as a finite double other than zero, and the
position of its point before or after them. -/
def shortest (x : Binary64) : List Char × Int :=
  let position := x.pointPosition
  let found := (List.range 17).findSome? fun (n : Nat) =>
    let exponent := position - (n + 1)
    (x.onGrid? exponent).map fun d => (Nat.toDigits 10 d, exponent)
  match found with
  | some (digits, exponent) => (dropZeros digits, digits.length + exponent)
  | none => ([], 0)

/-- Plain notation keeps a digit on both sides of the point. -/
def plain (digits : List Char) (position : Int) : String :=
  if position ≤ 0 then
    "0." ++ String.ofList (List.replicate (-position).toNat '0' ++ digits)
  else
    let whole := digits.take position.toNat
    let fraction := digits.drop position.toNat
    let padding := List.replicate (position.toNat - whole.length) '0'
    String.ofList (whole ++ padding) ++ "." ++
      (if fraction.isEmpty then "0" else String.ofList fraction)

/-- Scientific notation has one digit before the point, and no point if no digit follows. -/
def scientific (digits : List Char) (position : Int) : String :=
  let fraction := digits.drop 1
  String.ofList (digits.take 1) ++
    (if fraction.isEmpty then "" else "." ++ String.ofList fraction) ++
    "e" ++ toString (position - 1)

/-- Plain notation from `1e-4` up to below `1e16`, scientific notation beyond. -/
def toText (x : Binary64) : String :=
  let sign := if x.signBit then "-" else ""
  if x.isNaN then "NaN"
  else if x.isInfinite then sign ++ "inf"
  else if x.isZero then sign ++ "0.0"
  else
    let (digits, position) := x.shortest
    sign ++ (if -4 < position && position ≤ 16 then plain digits position
      else scientific digits position)

end Symbolic.Binary64
