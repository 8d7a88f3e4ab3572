import Keystream.Bits

/-!
# Words of 64 bits

Bits of a machine word, seen through `Word.bit`: each operation is described by one lemma that says
what it does to every bit. `Word.low` keeps low bits, `Word.put` replaces one, and `Word.slide`
moves a window of bits one place down and writes a bit at its top.
-/

namespace Keystream.Word

/-- Bit `i`, which is zero from position 64 on. -/
def bit (w : UInt64) (i : Nat) : Bool :=
  w.toNat.testBit i

theorem bit_of_le {w : UInt64} {i : Nat} (h : 64 ≤ i) : bit w i = false :=
  Bits.testBit_of_le w.toNat_lt h

theorem ext_bit {v w : UInt64} (h : ∀ i, i < 64 → bit v i = bit w i) : v = w := by
  apply UInt64.toNat_inj.1
  apply Nat.eq_of_testBit_eq
  intro i
  by_cases hi : i < 64
  · exact h i hi
  · have hi : 64 ≤ i := by omega
    exact (bit_of_le (w := v) hi).trans (bit_of_le (w := w) hi).symm

@[simp] theorem bit_zero (i : Nat) : bit 0 i = false := by
  simp only [bit, UInt64.toNat_zero, Nat.zero_testBit]

@[simp] theorem bit_and (v w : UInt64) (i : Nat) : bit (v &&& w) i = (bit v i && bit w i) := by
  simp only [bit, UInt64.toNat_and, Nat.testBit_and]

@[simp] theorem bit_or (v w : UInt64) (i : Nat) : bit (v ||| w) i = (bit v i || bit w i) := by
  simp only [bit, UInt64.toNat_or, Nat.testBit_or]

@[simp] theorem bit_xor (v w : UInt64) (i : Nat) : bit (v ^^^ w) i = (bit v i ^^ bit w i) := by
  simp only [bit, UInt64.toNat_xor, Nat.testBit_xor]

theorem bit_not (w : UInt64) {i : Nat} (h : i < 64) : bit (~~~w) i = !bit w i := by
  change (~~~w).toBitVec.getLsbD i = !w.toBitVec.getLsbD i
  rw [UInt64.toBitVec_not, BitVec.getLsbD_not, decide_eq_true h, Bool.true_and]

theorem bit_ofNat (v : Nat) {i : Nat} (h : i < 64) : bit (UInt64.ofNat v) i = v.testBit i := by
  rw [bit, UInt64.toNat_ofNat', Nat.testBit_mod_two_pow, decide_eq_true h, Bool.true_and]

theorem bit_shiftLeft (w : UInt64) {i j : Nat} (hi : i < 64) (hj : j < 64) :
    bit (w <<< UInt64.ofNat i) j = (decide (i ≤ j) && bit w (j - i)) := by
  have he : i % 2 ^ 64 % 64 = i := by omega
  rw [bit, UInt64.toNat_shiftLeft, UInt64.toNat_ofNat', he, Nat.testBit_mod_two_pow,
    decide_eq_true hj, Bool.true_and, Nat.testBit_shiftLeft]
  rfl

theorem toNat_shiftRight (w : UInt64) {i : Nat} (hi : i < 64) :
    (w >>> UInt64.ofNat i).toNat = w.toNat / 2 ^ i := by
  have he : i % 2 ^ 64 % 64 = i := by omega
  rw [UInt64.toNat_shiftRight, UInt64.toNat_ofNat', he, Nat.shiftRight_eq_div_pow]

theorem bit_shiftRight (w : UInt64) {i : Nat} (hi : i < 64) (j : Nat) :
    bit (w >>> UInt64.ofNat i) j = bit w (i + j) := by
  rw [bit, toNat_shiftRight w hi, Nat.testBit_div_two_pow, Nat.add_comm]
  rfl

def single (i : Nat) : UInt64 :=
  1 <<< UInt64.ofNat i

theorem toNat_single {i : Nat} (h : i < 64) : (single i).toNat = 2 ^ i := by
  have he : i % 2 ^ 64 % 64 = i := by omega
  rw [single, UInt64.toNat_shiftLeft, UInt64.toNat_ofNat', he, UInt64.toNat_one,
    Nat.one_shiftLeft]
  exact Nat.mod_eq_of_lt (Nat.pow_lt_pow_right (by decide) h)

theorem bit_single {i : Nat} (h : i < 64) (j : Nat) : bit (single i) j = decide (i = j) := by
  rw [bit, toNat_single h, Nat.testBit_two_pow]

theorem bit_foldl_single {positions : List Nat} (h : ∀ i ∈ positions, i < 64) (w : UInt64)
    (j : Nat) :
    bit (positions.foldl (fun w i => w ||| single i) w) j = (bit w j || decide (j ∈ positions)) := by
  induction positions generalizing w with
  | nil => simp
  | cons i positions ih =>
    have hi : i < 64 := h i List.mem_cons_self
    rw [List.foldl_cons, ih fun k hk => h k (List.mem_cons_of_mem i hk), bit_or, bit_single hi,
      Bool.or_assoc]
    simp [eq_comm]

/-- The word with ones exactly below position `length`. -/
def lowMask (length : Nat) : UInt64 :=
  if length < 64 then single length - 1 else 0xffffffffffffffff

theorem bit_lowMask (length : Nat) {i : Nat} (hi : i < 64) :
    bit (lowMask length) i = decide (i < length) := by
  unfold lowMask
  split
  · next h =>
    have hle : (1 : UInt64) ≤ single length := by
      rw [UInt64.le_iff_toNat_le, toNat_single h]
      exact Nat.two_pow_pos length
    rw [bit, UInt64.toNat_sub_of_le _ _ hle, toNat_single h, UInt64.toNat_one,
      Nat.testBit_two_pow_sub_one]
  · next h =>
    rw [bit, show (0xffffffffffffffff : UInt64).toNat = 2 ^ 64 - 1 from rfl,
      Nat.testBit_two_pow_sub_one, decide_eq_true hi, decide_eq_true (by omega)]

/-- The word made of the lowest `length` bits of `w`. -/
def low (length : Nat) (w : UInt64) : UInt64 :=
  w &&& lowMask length

theorem bit_low (length : Nat) (w : UInt64) (i : Nat) :
    bit (low length w) i = (decide (i < length) && bit w i) := by
  by_cases hi : i < 64
  · rw [low, bit_and, bit_lowMask length hi, Bool.and_comm]
  · rw [bit_of_le (by omega), bit_of_le (w := w) (by omega), Bool.and_false]

theorem toNat_low (length : Nat) (w : UInt64) : (low length w).toNat = w.toNat % 2 ^ length := by
  apply Nat.eq_of_testBit_eq
  intro i
  rw [Nat.testBit_mod_two_pow]
  exact bit_low length w i

theorem toNat_low_lt (length : Nat) (w : UInt64) : (low length w).toNat < 2 ^ length := by
  rw [toNat_low]
  exact Nat.mod_lt _ (Nat.two_pow_pos length)

/-- The word `w` with bit `i` made equal to `b`. -/
def put (w : UInt64) (i : Nat) (b : Bool) : UInt64 :=
  (w &&& ~~~single i) ||| (b.toUInt64 <<< UInt64.ofNat i)

theorem bit_toUInt64_shiftLeft (b : Bool) {i : Nat} (hi : i < 64) (j : Nat) :
    bit (b.toUInt64 <<< UInt64.ofNat i) j = (decide (i = j) && b) := by
  cases b with
  | true => rw [Bool.and_true]; exact bit_single hi j
  | false =>
    rw [Bool.and_false, show false.toUInt64 = 0 from rfl, UInt64.zero_shiftLeft, bit_zero]

theorem bit_put (w : UInt64) {i : Nat} (hi : i < 64) (b : Bool) (j : Nat) :
    bit (put w i b) j = if j = i then b else bit w j := by
  rw [put, bit_or, bit_toUInt64_shiftLeft b hi, bit_and]
  by_cases hj : j < 64
  · rw [bit_not _ hj, bit_single hi]
    by_cases h : j = i
    · simp [h]
    · simp [h, show ¬ i = j from fun e => h e.symm]
  · rw [bit_of_le (w := w) (by omega)]
    simp [show ¬ i = j by omega, show ¬ j = i by omega]

/-- The window of bits up to position `top` moved one place down, with `b` written at `top`. -/
def slide (w : UInt64) (top : Nat) (b : Bool) : UInt64 :=
  (w >>> 1) ||| (b.toUInt64 <<< UInt64.ofNat top)

theorem bit_slide (w : UInt64) {top : Nat} (h : top < 64) (b : Bool) (i : Nat) :
    bit (slide w top b) i = (bit w (i + 1) || (decide (top = i) && b)) := by
  rw [slide, bit_or, bit_toUInt64_shiftLeft b h, Nat.add_comm i 1]
  exact congrArg (· || _) (bit_shiftRight w (i := 1) (by decide) i)

def ones (w : UInt64) : Nat :=
  Bits.ones w.toNat

def parity (w : UInt64) : Bool :=
  ones w % 2 == 1

end Keystream.Word
