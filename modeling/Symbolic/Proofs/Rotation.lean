import Symbolic.Proofs.Exact
import Symbolic.Proofs.TwosComplement

/-! Rotations turn the places of a word in a circle: the amount counts modulo the width, and two
rotations make one. The words of a machine are wide enough to compute them in. -/
namespace Symbolic

-- The powers are those of the core library, as in the definitions.
attribute [local instance (1100)] instPowNat

/-- The place that is `amount` places further on, in a circle of `width` places. -/
def turned (width : Nat) (place amount : Int) : Nat := ((place + amount) % width).toNat

/-- A word of `width` bits, each of them the bit of an integer that is `amount` places further
on. -/
structure TurnedBits (width : Nat) (x amount : Int) (word : Nat) : Prop where
  lt : word < 2 ^ width
  testBit : ∀ p < width, word.testBit p = (x % 2 ^ width).testBit (turned width p amount)

section

variable {width : Nat} {p a b : Int}

theorem turned_lt (hwidth : 0 < width) (p a : Int) : turned width p a < width := by
  have hpos : (0 : Int) < width := by omega
  have hlt : (p + a) % width < width := Int.emod_lt_of_pos _ hpos
  rw [turned]
  omega

theorem turned_turned (hwidth : 0 < width) (p a b : Int) :
    turned width (turned width p a) b = turned width p (a + b) := by
  have hnonneg : 0 ≤ (p + a) % (width : Int) := Int.emod_nonneg _ (by omega)
  rw [turned, turned, turned, Int.toNat_of_nonneg hnonneg, Int.emod_add_emod, Int.add_assoc]

/-- Whole turns do not count. -/
theorem turned_congr (h : a % width = b % width) : turned width p a = turned width p b := by
  rw [turned, turned, ← Int.add_emod_emod, h, Int.add_emod_emod]

theorem turned_of_lt (hp : 0 ≤ p + a) (hlt : p + a < width) : turned width p a = (p + a).toNat := by
  rw [turned, Int.emod_eq_of_lt hp hlt]

end

namespace Number

/-- The low bits of an integer, as many as a word has. -/
def lowWord (width : Nat) (x : Int) : Nat := (x % (2 ^ width : Nat)).toNat

/-- A shift of a machine word, which is by fewer places than it has. -/
def shiftUp? (word : UInt64) (amount : Nat) : Option UInt64 :=
  if amount < 64 then some (word <<< .ofNat amount) else none

def shiftDown? (word : UInt64) (amount : Nat) : Option UInt64 :=
  if amount < 64 then some (word >>> .ofNat amount) else none

/-- The machine word whose low bits are set, where all of them take no shift. -/
def lowMask? (width : Nat) : Option UInt64 :=
  if width = 64 then some (~~~0) else (shiftUp? 1 width).map (· - 1)

/-- A rotation in machine words, where a word that stays as it is takes no shift. -/
def rotateMachineWord? (word : UInt64) (amount width : Nat) : Option UInt64 :=
  if amount = 0 then some word
  else
    (lowMask? width).bind fun mask => (shiftUp? word amount).bind fun upper =>
      (shiftDown? word (width - amount)).map fun lower => (upper ||| lower) &&& mask

variable {width word word' k j : Nat}

/-- Words of some width are told by their bits at its places. -/
theorem eq_of_testBit_eq (hword : word < 2 ^ width) (hword' : word' < 2 ^ width)
    (h : ∀ p < width, word.testBit p = word'.testBit p) : word = word' := by
  apply Nat.eq_of_testBit_eq
  intro p
  by_cases hp : p < width
  · exact h p hp
  · have hpow : 2 ^ width ≤ 2 ^ p := Nat.pow_le_pow_right (by decide) (by omega)
    rw [Nat.testBit_lt_two_pow (Nat.lt_of_lt_of_le hword hpow),
      Nat.testBit_lt_two_pow (Nat.lt_of_lt_of_le hword' hpow)]

theorem rotateWord_lt (word k width : Nat) : rotateWord word k width < 2 ^ width :=
  Nat.mod_lt _ (Nat.two_pow_pos width)

/-- Of the two shifted words one has no bit at the place that the other one fills. -/
theorem testBit_rotateWord (hword : word < 2 ^ width) (hk : k < width) {p : Nat} (hp : p < width) :
    (rotateWord word k width).testBit p = word.testBit (turned width p (-k)) := by
  rw [rotateWord, Nat.testBit_mod_two_pow, Nat.testBit_or, Nat.testBit_shiftLeft,
    Nat.testBit_shiftRight]
  by_cases hle : k ≤ p
  · have hplace : turned width p (-k) = p - k := by
      rw [turned_of_lt (by omega) (by omega)]
      omega
    have hpow : 2 ^ width ≤ 2 ^ (width - k + p) := Nat.pow_le_pow_right (by decide) (by omega)
    have hbeyond : word.testBit (width - k + p) = false :=
      Nat.testBit_lt_two_pow (Nat.lt_of_lt_of_le hword hpow)
    simp [hp, hle, hplace, hbeyond]
  · have hturn : (-k : Int) % width = (width - k : Int) % width := by
      rw [Int.sub_eq_add_neg, Int.add_emod_left]
    have hplace : turned width p (-k) = width - k + p := by
      rw [turned_congr hturn, turned_of_lt (by omega) (by omega)]
      omega
    simp [hp, hle, hplace]

theorem rotateWord_zero (hword : word < 2 ^ width) (hwidth : 0 < width) :
    rotateWord word 0 width = word := by
  apply eq_of_testBit_eq (rotateWord_lt _ _ _) hword
  intro p hp
  rw [testBit_rotateWord hword hwidth hp, turned_of_lt (by omega) (by omega)]
  simp

/-- Two rotations make one. -/
theorem rotateWord_rotateWord (hword : word < 2 ^ width) (hk : k < width) (hj : j < width) :
    rotateWord (rotateWord word k width) j width = rotateWord word ((k + j) % width) width := by
  have hwidth : 0 < width := by omega
  have hboth : (k + j) % width < width := Nat.mod_lt _ hwidth
  apply eq_of_testBit_eq (rotateWord_lt _ _ _) (rotateWord_lt _ _ _)
  intro p hp
  rw [testBit_rotateWord (rotateWord_lt _ _ _) hj hp,
    testBit_rotateWord hword hk (turned_lt hwidth _ _), testBit_rotateWord hword hboth hp,
    turned_turned hwidth]
  congr 1
  apply turned_congr
  rw [← Int.neg_add, Int.add_comm (j : Int)]
  push_cast
  rw [← Int.zero_sub, ← Int.zero_sub, Int.sub_emod_emod]

theorem natCast_lowWord (width : Nat) (x : Int) : (lowWord width x : Int) = x % 2 ^ width := by
  have hpos : (0 : Int) < (2 ^ width : Nat) := by exact_mod_cast Nat.two_pow_pos width
  rw [lowWord, Int.toNat_of_nonneg (Int.emod_nonneg x (by omega)), Int.natCast_pow]
  rfl

theorem lowWord_lt (width : Nat) (x : Int) : lowWord width x < 2 ^ width := by
  have hpos : (0 : Int) < (2 ^ width : Nat) := by exact_mod_cast Nat.two_pow_pos width
  have hlt : x % (2 ^ width : Nat) < (2 ^ width : Nat) := Int.emod_lt_of_pos x hpos
  rw [lowWord]
  omega

theorem lowWord_natCast (hword : word < 2 ^ width) : lowWord width word = word := by
  rw [lowWord, ← Int.natCast_emod, Int.toNat_natCast, Nat.mod_eq_of_lt hword]

theorem rotateLeft_nat (hwidth : 1 ≤ width ∧ width ≤ 64) (x : Int) (i : Nat) :
    rotateLeft (.int x) (.int i) width =
      .ok (.int (rotateWord (lowWord width x) (i % width) width)) := by
  rw [rotateLeft, rotationOperands_int (by omega)]
  rfl

theorem rotateRight_nat (hwidth : 1 ≤ width ∧ width ≤ 64) (x : Int) (i : Nat) :
    rotateRight (.int x) (.int i) width =
      .ok (.int (rotateWord (lowWord width x) ((width - i % width) % width) width)) := by
  rw [rotateRight, rotationOperands_int (by omega)]
  rfl

theorem turnedBits_rotateWord (x : Int) (hk : k < width) {amount : Int}
    (ha : (-k : Int) % width = amount % width) :
    TurnedBits width x amount (rotateWord (lowWord width x) k width) where
  lt := rotateWord_lt _ _ _
  testBit p hp := by
    rw [testBit_rotateWord (lowWord_lt width x) hk hp, turned_congr ha, ← natCast_lowWord]
    rfl

theorem toNat_amount (hk : k < 64) : (UInt64.ofNat k).toNat % 64 = k := by
  rw [UInt64.toNat_ofNat_of_lt' (by rw [UInt64.size]; omega), Nat.mod_eq_of_lt hk]

theorem shiftUp?_eq (word : UInt64) (hk : k < 64) :
    ∃ shifted, shiftUp? word k = some shifted ∧ shifted.toNat = word.toNat <<< k % 2 ^ 64 := by
  refine ⟨_, if_pos hk, ?_⟩
  rw [UInt64.toNat_shiftLeft, toNat_amount hk]

theorem shiftDown?_eq (word : UInt64) (hk : k < 64) :
    ∃ shifted, shiftDown? word k = some shifted ∧ shifted.toNat = word.toNat >>> k := by
  refine ⟨_, if_pos hk, ?_⟩
  rw [UInt64.toNat_shiftRight, toNat_amount hk]

theorem lowMask?_eq (hwidth : width ≤ 64) :
    ∃ mask, lowMask? width = some mask ∧ mask.toNat = 2 ^ width - 1 := by
  rw [lowMask?]
  split
  · next h => exact ⟨_, rfl, by rw [h]; rfl⟩
  · next h =>
    have hlt : width < 64 := by omega
    obtain ⟨bit, hbit, htoNat⟩ := shiftUp?_eq 1 hlt
    have hpow : bit.toNat = 2 ^ width := by
      rw [htoNat, UInt64.toNat_one, Nat.one_shiftLeft, Nat.mod_eq_of_lt]
      exact Nat.pow_lt_pow_right (by decide) hlt
    refine ⟨bit - 1, by rw [hbit]; rfl, ?_⟩
    rw [UInt64.toNat_sub_of_le, hpow]
    · rfl
    · rw [UInt64.le_iff_toNat_le, hpow]
      exact Nat.two_pow_pos width

/-- What a machine word loses at its upper end is beyond every width. -/
theorem or_mod_two_pow (hwidth : width ≤ 64) (upper lower : Nat) :
    (upper % 2 ^ 64 ||| lower) % 2 ^ width = (upper ||| lower) % 2 ^ width := by
  apply Nat.eq_of_testBit_eq
  intro p
  simp only [Nat.testBit_mod_two_pow, Nat.testBit_or]
  by_cases hp : p < width
  · have hlt : p < 64 := by omega
    simp [hlt]
  · simp [hp]

/-- No shift of a rotation is by more places than a machine word allows, and the result is the
same. -/
theorem rotateMachineWord?_eq (hwidth : width ≤ 64) (hword : word < 2 ^ width) (hk : k < width) :
    (rotateMachineWord? (.ofNat word) k width).map UInt64.toNat = some
    (rotateWord word k width) := by
  have hsize : word < 2 ^ 64 :=
    Nat.lt_of_lt_of_le hword (Nat.pow_le_pow_right (by decide) hwidth)
  have htoNat : (UInt64.ofNat word).toNat = word := UInt64.toNat_ofNat_of_lt' hsize
  rw [rotateMachineWord?]
  split
  · next h => rw [h, Option.map_some, htoNat, rotateWord_zero hword (by omega)]
  · next h =>
    obtain ⟨mask, hmask, hbits⟩ := lowMask?_eq hwidth
    obtain ⟨upper, hupper, hup⟩ := shiftUp?_eq (.ofNat word) (show k < 64 by omega)
    obtain ⟨lower, hlower, hdown⟩ :=
      shiftDown?_eq (.ofNat word) (show width - k < 64 by omega)
    rw [hmask, hupper, hlower, Option.bind_some, Option.bind_some, Option.map_some, Option.map_some,
      UInt64.toNat_and, UInt64.toNat_or, hup, hdown, hbits, htoNat, Nat.and_two_pow_sub_one_eq_mod,
      or_mod_two_pow hwidth, rotateWord]

/-- The rest of a turn. -/
theorem add_rest_mod (hk : k < width) : (k + (width - k) % width) % width = 0 := by
  rw [Nat.add_mod_mod, Nat.add_sub_cancel' (Nat.le_of_lt hk), Nat.mod_self]

/-- A rotation of a word of 1 to 64 bits takes any integer and any natural amount. Each bit of the
low bits of the integer goes up or down a circle by so many places, which machine words are enough
to compute. One to the right undoes the one to the left, those to the left add up, and one to the
right is the one to the left by the rest of the turn. -/
theorem rotations_turn_bits (hwidth : 1 ≤ width ∧ width ≤ 64) (x : Int) (i j : Nat) :
    (∃ word : Nat, rotateLeft (.int x) (.int i) width = .ok (.int word) ∧
      TurnedBits width x (-i) word ∧
      (rotateMachineWord? (.ofNat (lowWord width x)) (i % width) width).map UInt64.toNat =
        some word) ∧
    (∃ word : Nat, rotateRight (.int x) (.int i) width = .ok (.int word) ∧
      TurnedBits width x i word ∧
      (rotateMachineWord? (.ofNat (lowWord width x)) ((width - i % width) % width) width).map
        UInt64.toNat = some word) ∧
    (rotateLeft (.int x) (.int i) width).bind (fun y => rotateRight y (.int i) width) =
      .ok (.int (x % 2 ^ width)) ∧
    (rotateLeft (.int x) (.int i) width).bind (fun y => rotateLeft y (.int j) width) =
      rotateLeft (.int x) (.int (i + j : Nat)) width ∧
    rotateRight (.int x) (.int i) width =
      rotateLeft (.int x) (.int ((width - i % width) % width : Nat)) width := by
  have hpos : 0 < width := by omega
  have hi : i % width < width := Nat.mod_lt _ hpos
  have hj : j % width < width := Nat.mod_lt _ hpos
  have hrest : (width - i % width) % width < width := Nat.mod_lt _ hpos
  have hword := lowWord_lt width x
  have hrotated := lowWord_natCast (rotateWord_lt (lowWord width x) (i % width) width)
  refine ⟨⟨_, rotateLeft_nat hwidth x i, ?_, rotateMachineWord?_eq hwidth.2 hword hi⟩,
    ⟨_, rotateRight_nat hwidth x i, ?_, rotateMachineWord?_eq hwidth.2 hword hrest⟩, ?_, ?_, ?_⟩
  · apply turnedBits_rotateWord x hi
    push_cast
    rw [← Int.zero_sub, ← Int.zero_sub, Int.sub_emod_emod]
  · apply turnedBits_rotateWord x hrest
    have hturn : ((width - i % width : Nat) : Int) = width - i % width := by omega
    push_cast [hturn]
    rw [← Int.zero_sub, Int.sub_emod_emod, Int.zero_sub, Int.neg_sub, Int.sub_emod_right]
    exact Int.emod_emod _ _
  · rw [rotateLeft_nat hwidth, Except.bind, rotateRight_nat hwidth, hrotated,
      rotateWord_rotateWord hword hi hrest, add_rest_mod hi, rotateWord_zero hword hpos,
      natCast_lowWord]
  · rw [rotateLeft_nat hwidth, Except.bind, rotateLeft_nat hwidth, hrotated,
      rotateWord_rotateWord hword hi hj, rotateLeft_nat hwidth, Nat.add_mod i j]
  · rw [rotateRight_nat hwidth, rotateLeft_nat hwidth, Nat.mod_mod]

/-- The zero at the lower end of -2 goes up three places by more than a whole turn of a machine
word, and down as many. -/
theorem rotations_turn_bits_of_negative :
    let x := Number.int (-2)
    let i := 2 ^ 64 + 3
    (1 ≤ 64 ∧ 64 ≤ 64) ∧ rotateLeft x (.int i) 64 = .ok (.int (2 ^ 64 - 1 - 2 ^ 3)) ∧
      rotateRight x (.int i) 64 = .ok (.int (2 ^ 64 - 1 - 2 ^ 61)) ∧
      TurnedBits 64 (-2) (-i) (2 ^ 64 - 1 - 2 ^ 3) ∧ TurnedBits 64 (-2) i (2 ^ 64 - 1 - 2 ^ 61) ∧
      (rotateLeft x (.int i) 64).bind (fun y => rotateRight y (.int i) 64) =
        .ok (.int (2 ^ 64 - 2)) ∧
      (rotateLeft x (.int i) 64).bind (fun y => rotateLeft y (.int 61) 64) =
        .ok (.int (2 ^ 64 - 2)) ∧
      rotateRight x (.int i) 64 = rotateLeft x (.int 61) 64 := by
  have hleft : rotateLeft (.int (-2)) (.int (2 ^ 64 + 3 : Nat)) 64 =
      .ok (.int (2 ^ 64 - 1 - 2 ^ 3 : Nat)) := by decide
  have hright : rotateRight (.int (-2)) (.int (2 ^ 64 + 3 : Nat)) 64 =
      .ok (.int (2 ^ 64 - 1 - 2 ^ 61 : Nat)) := by decide
  obtain ⟨⟨l, hl, hup, _⟩, ⟨r, hr, hdown, _⟩, hback, hadd, hrest⟩ :=
    rotations_turn_bits (by decide : 1 ≤ 64 ∧ 64 ≤ 64) (-2) (2 ^ 64 + 3) 61
  obtain rfl : l = 2 ^ 64 - 1 - 2 ^ 3 :=
    Int.ofNat.inj (int.inj (Except.ok.inj (hl.symm.trans hleft)))
  obtain rfl : r = 2 ^ 64 - 1 - 2 ^ 61 :=
    Int.ofNat.inj (int.inj (Except.ok.inj (hr.symm.trans hright)))
  exact ⟨by decide, hl, hr, hup, hdown, hback, hadd.trans (by decide), hrest⟩

end Number
end Symbolic
