/-! Bitwise operations on integers as endless two's complement bit strings. -/
namespace Symbolic.TwosComplement

/-- The bits of `m` that are not in `n`. -/
def without (m n : Nat) : Nat := m ^^^ (m &&& n)

/-- A negative integer is the complement of a natural number, `-1 - n`. -/
def and : Int → Int → Int
  | .ofNat m, .ofNat n => .ofNat (m &&& n)
  | .ofNat m, .negSucc n => .ofNat (without m n)
  | .negSucc m, .ofNat n => .ofNat (without n m)
  | .negSucc m, .negSucc n => .negSucc (m ||| n)

def or : Int → Int → Int
  | .ofNat m, .ofNat n => .ofNat (m ||| n)
  | .ofNat m, .negSucc n => .negSucc (without n m)
  | .negSucc m, .ofNat n => .negSucc (without m n)
  | .negSucc m, .negSucc n => .negSucc (m &&& n)

def xor : Int → Int → Int
  | .ofNat m, .ofNat n => .ofNat (m ^^^ n)
  | .ofNat m, .negSucc n => .negSucc (m ^^^ n)
  | .negSucc m, .ofNat n => .negSucc (m ^^^ n)
  | .negSucc m, .negSucc n => .ofNat (m ^^^ n)

def complement (a : Int) : Int := -a - 1

/-- The number of binary digits of the absolute value, none for zero. -/
def bitLength (a : Int) : Nat := if a = 0 then 0 else a.natAbs.log2 + 1

end Symbolic.TwosComplement
