/-!
# Naturals as sequences of bits

Bit `i` of a natural number is `Nat.testBit` at `i`. This module packs lists of bits into numbers,
lowest bit first, keeps the low bits of a number, and counts its ones. A length is never used as an
exponent unless the number at hand is at least that long, so that short numbers stay cheap in very
long sequences.
-/

/- A power of a natural number is read in the natural numbers themselves, also where a power in any
monoid is in scope. -/
attribute [instance (2000)] instPowNat

namespace Keystream.Bits

/-- The number whose bit `i` is entry `i` of the list. -/
def toNat (bits : List Bool) : Nat :=
  bits.foldr (fun b v => 2 * v + b.toNat) 0

@[simp] theorem toNat_nil : toNat [] = 0 := rfl

@[simp] theorem toNat_cons (b : Bool) (bits : List Bool) :
    toNat (b :: bits) = 2 * toNat bits + b.toNat := rfl

theorem toNat_lt (bits : List Bool) : toNat bits < 2 ^ bits.length := by
  induction bits with
  | nil => simp
  | cons b bits ih =>
    have := b.toNat_lt
    simp only [toNat_cons, List.length_cons, Nat.pow_succ]
    omega

theorem testBit_toNat (bits : List Bool) (i : Nat) :
    (toNat bits).testBit i = (bits[i]?).getD false := by
  induction bits generalizing i with
  | nil => simp
  | cons b bits ih =>
    have hb := b.toNat_lt
    cases i with
    | zero => cases b <;> simp [Nat.testBit_zero, Nat.add_mod]
    | succ i =>
      rw [Nat.testBit_succ, toNat_cons,
        show (2 * toNat bits + b.toNat) / 2 = toNat bits by omega, ih]
      simp

theorem testBit_of_le {length v i : Nat} (hv : v < 2 ^ length) (hi : length ≤ i) :
    v.testBit i = false :=
  Nat.testBit_lt_two_pow (Nat.lt_of_lt_of_le hv (Nat.pow_le_pow_right Nat.two_pos hi))

theorem lt_of_testBit {length v i : Nat} (hv : v < 2 ^ length) (hi : v.testBit i = true) :
    i < length := by
  rcases Nat.lt_or_ge i length with h | h
  · exact h
  · rw [testBit_of_le hv h] at hi
    exact absurd hi Bool.false_ne_true

/-- The lowest `length` bits, lowest first. -/
def ofNat (length v : Nat) : List Bool :=
  (List.range length).map v.testBit

@[simp] theorem length_ofNat (length v : Nat) : (ofNat length v).length = length := by
  simp [ofNat]

/-- Whether all ones of `v` lie below position `length`. -/
def fits (length v : Nat) : Bool :=
  v == 0 || v.log2 < length

theorem fits_iff {length v : Nat} : fits length v = true ↔ v < 2 ^ length := by
  unfold fits
  by_cases h : v = 0
  · subst h
    exact iff_of_true rfl (Nat.two_pow_pos length)
  · rw [beq_false_of_ne h, Bool.false_or, decide_eq_true_eq, Nat.log2_lt h]

/-- The number made of the lowest `length` bits of `v`. -/
def low (length v : Nat) : Nat :=
  if fits length v then v else v % 2 ^ length

theorem low_eq_mod (length v : Nat) : low length v = v % 2 ^ length := by
  unfold low
  split
  · next h => exact (Nat.mod_eq_of_lt (fits_iff.1 h)).symm
  · rfl

theorem low_lt (length v : Nat) : low length v < 2 ^ length := by
  rw [low_eq_mod]
  exact Nat.mod_lt _ (Nat.two_pow_pos length)

/-- Adds the number of ones of `v` to a count. -/
def countOnes (count v : Nat) : Nat :=
  if v = 0 then count else countOnes (count + v % 2) (v / 2)
termination_by v
decreasing_by omega

/-- How many bits of `v` are ones. -/
def ones (v : Nat) : Nat :=
  countOnes 0 v

theorem countOnes_zero (count : Nat) : countOnes count 0 = count := by
  rw [countOnes, if_pos rfl]

theorem countOnes_of_ne_zero (count : Nat) {v : Nat} (h : v ≠ 0) :
    countOnes count v = countOnes (count + v % 2) (v / 2) := by
  rw [countOnes, if_neg h]

theorem countOnes_eq_add (count v : Nat) : countOnes count v = count + ones v := by
  induction v using Nat.strongRecOn generalizing count with
  | ind v ih =>
    unfold ones
    by_cases h : v = 0
    · subst h
      rw [countOnes_zero, countOnes_zero, Nat.add_zero]
    · have hlt : v / 2 < v := by omega
      rw [countOnes_of_ne_zero _ h, countOnes_of_ne_zero _ h, ih _ hlt, ih _ hlt]
      omega

@[simp] theorem ones_zero : ones 0 = 0 :=
  countOnes_zero 0

theorem ones_eq_half_add (v : Nat) : ones v = ones (v / 2) + v % 2 := by
  by_cases h : v = 0
  · subst h
    rw [Nat.zero_div, Nat.zero_mod, Nat.add_zero]
  · rw [ones, countOnes_of_ne_zero _ h, countOnes_eq_add]
    omega

/-- The sum modulo two of the bits of `v`. -/
def parity (v : Nat) : Bool :=
  ones v % 2 == 1

/-- The number `v` with bit `i` made equal to `b`. -/
def put (v i : Nat) (b : Bool) : Nat :=
  if v.testBit i == b then v else v ^^^ 1 <<< i

theorem put_lt {length v i : Nat} {b : Bool} (hv : v < 2 ^ length) (hi : i < length) :
    put v i b < 2 ^ length := by
  unfold put
  split
  · exact hv
  · apply Nat.xor_lt_two_pow hv
    rw [Nat.one_shiftLeft]
    exact Nat.pow_lt_pow_right (by decide) hi

theorem testBit_put (v i j : Nat) (b : Bool) :
    (put v i b).testBit j = if j = i then b else v.testBit j := by
  unfold put
  split
  · next h =>
    split
    · next hj => rw [hj]; exact eq_of_beq h
    · rfl
  · next h =>
    rw [Nat.testBit_xor, Nat.one_shiftLeft, Nat.testBit_two_pow]
    split
    · next hj =>
      subst hj
      cases hv : v.testBit j <;> cases b <;> simp_all
    · next hj => simp [show ¬ i = j from fun e => hj e.symm]

theorem testBit_foldl_put (positions : List Nat) (v j : Nat) :
    (positions.foldl (fun v i => put v i true) v).testBit j =
      (v.testBit j || decide (j ∈ positions)) := by
  induction positions generalizing v with
  | nil => simp
  | cons i positions ih =>
    rw [List.foldl_cons, ih, testBit_put]
    by_cases h : j = i <;> simp [h]

end Keystream.Bits
