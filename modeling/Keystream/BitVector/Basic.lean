import Keystream.Error
import Keystream.Word

/-!
# Bit vectors

A vector of any length, lowest index first. Up to 64 bits live in one word, more in a natural
number; `BitVector.bit` reads either, and no bit at or above the length is ever set.
-/

namespace Keystream

def readBit (value : Nat) : Except Error Bool :=
  if value ≤ 1 then .ok (value == 1) else .error (.invalidBit value)

/-- The bits written as numbers; the first number that is none is the error. -/
def readBits (values : List Nat) : Except Error (List Bool) :=
  values.mapM readBit

/-- Where the bits of a vector are kept. -/
inductive Storage where
  | word (bits : UInt64)
  | wide (bits : Nat)
  deriving DecidableEq

namespace Storage

def isWord : Storage → Bool
  | word _ => true
  | wide _ => false

/-- The number whose bits are stored. -/
def value : Storage → Nat
  | word w => w.toNat
  | wide v => v

end Storage

structure BitVector where
  length : Nat
  storage : Storage
  isWord_iff : storage.isWord = true ↔ length ≤ 64
  value_lt : storage.value < 2 ^ length
  deriving DecidableEq

namespace BitVector

def toNat (x : BitVector) : Nat :=
  x.storage.value

theorem toNat_lt (x : BitVector) : x.toNat < 2 ^ x.length :=
  x.value_lt

def isEmpty (x : BitVector) : Bool :=
  x.length == 0

def zeros (length : Nat) : BitVector where
  length := length
  storage := if length ≤ 64 then .word 0 else .wide 0
  isWord_iff := by split <;> simp_all [Storage.isWord]
  value_lt := by split <;> exact Nat.two_pow_pos length

/-- The lowest `length` bits of a number. -/
def ofNat (length v : Nat) : BitVector where
  length := length
  storage :=
    if length ≤ 64 then .word (UInt64.ofNat (Bits.low length v)) else .wide (Bits.low length v)
  isWord_iff := by split <;> simp_all [Storage.isWord]
  value_lt := by
    have h := Bits.low_lt length v
    split
    · simp only [Storage.value, UInt64.toNat_ofNat']
      exact Nat.lt_of_le_of_lt (Nat.mod_le _ _) h
    · exact h

/-- The lowest `length` bits of a word, followed by zeros beyond 64 bits. -/
def ofWord (length : Nat) (w : UInt64) : BitVector where
  length := length
  storage := if length ≤ 64 then .word (Word.low length w) else .wide w.toNat
  isWord_iff := by split <;> simp_all [Storage.isWord]
  value_lt := by
    split
    · exact Word.toNat_low_lt length w
    · next h => exact Nat.lt_of_lt_of_le w.toNat_lt (Nat.pow_le_pow_right (by decide) (by omega))

def ofBits (bits : List Bool) : BitVector :=
  ofNat bits.length (Bits.toNat bits)

/-- The vector of bits written as numbers. -/
def ofNumbers (values : List Nat) : Except Error BitVector :=
  (readBits values).map ofBits

/-- Bit `i`, which is zero outside the vector. -/
def bit (x : BitVector) (i : Nat) : Bool :=
  match x.storage with
  | .word w => Word.bit w i
  | .wide v => v.testBit i

theorem bit_eq_testBit (x : BitVector) (i : Nat) : x.bit i = x.toNat.testBit i := by
  unfold bit toNat
  split <;> next h => rw [h]; rfl

def get (x : BitVector) (i : Nat) : Except Error Bool :=
  if i < x.length then .ok (x.bit i) else .error (.indexOutOfRange i x.length)

/-- All bits, lowest index first. -/
def toList (x : BitVector) : List Bool :=
  (List.range x.length).map x.bit

/-- The bits as binary digits, highest index first, so that they read as the number. -/
def text (x : BitVector) : String :=
  String.ofList (x.toList.reverse.map fun b => if b then '1' else '0')

/-- The vector with bit `i` made equal to `b`. -/
def put (x : BitVector) (i : Nat) (b : Bool) (hi : i < x.length) : BitVector where
  length := x.length
  storage :=
    match x.storage with
    | .word w => .word (Word.put w i b)
    | .wide v => .wide (Bits.put v i b)
  isWord_iff := by
    rw [← x.isWord_iff]
    cases x.storage <;> simp [Storage.isWord]
  value_lt := by
    have hx := x.value_lt
    have hw := x.isWord_iff
    cases h : x.storage with
    | word w =>
      rw [h] at hx hw
      have h64 : x.length ≤ 64 := hw.1 rfl
      apply Nat.lt_pow_two_of_testBit
      intro j hj
      have : j ≠ i := by omega
      change Word.bit (Word.put w i b) j = false
      rw [Word.bit_put w (by omega), if_neg this]
      exact Nat.testBit_lt_two_pow (Nat.lt_of_lt_of_le hx (Nat.pow_le_pow_right (by decide) hj))
    | wide v =>
      rw [h] at hx
      exact Bits.put_lt hx hi

/-- The vector with bit `i` replaced by the bit written as a number; the number is checked first. -/
def set (x : BitVector) (i value : Nat) : Except Error BitVector :=
  match readBit value with
  | .error e => .error e
  | .ok b => if hi : i < x.length then .ok (x.put i b hi) else .error (.indexOutOfRange i x.length)

def ones (x : BitVector) : Nat :=
  match x.storage with
  | .word w => Word.ones w
  | .wide v => Bits.ones v

def lowWord (x : BitVector) : UInt64 :=
  match x.storage with
  | .word w => w
  | .wide v => UInt64.ofNat v

def toUInt8 (x : BitVector) : UInt8 := x.lowWord.toUInt8

def toUInt16 (x : BitVector) : UInt16 := x.lowWord.toUInt16

def toUInt32 (x : BitVector) : UInt32 := x.lowWord.toUInt32

/-- The whole vector as a word, which up to 64 bits loses nothing. -/
def toWord (x : BitVector) : Except Error UInt64 :=
  if x.length ≤ 64 then .ok x.lowWord else .error (.tooWideForWord x.length)

/-- The inner product modulo two: the sum of the bits of one vector at the ones of the other. -/
def dot (x y : BitVector) : Bool :=
  match x.storage, y.storage with
  | .word v, .word w => Word.parity (v &&& w)
  | s, t => Bits.parity (s.value &&& t.value)

/-- The vector without its first bit, followed by `b`. -/
def slide (x : BitVector) (b : Bool) (hx : 0 < x.length) : BitVector where
  length := x.length
  storage :=
    match x.storage with
    | .word w => .word (Word.slide w (x.length - 1) b)
    | .wide v => .wide (Bits.put (v >>> 1) (x.length - 1) b)
  isWord_iff := by
    rw [← x.isWord_iff]
    cases x.storage <;> simp [Storage.isWord]
  value_lt := by
    have hv := x.value_lt
    have hw := x.isWord_iff
    cases h : x.storage with
    | word w =>
      rw [h] at hv hw
      have h64 : x.length ≤ 64 := hw.1 rfl
      apply Nat.lt_pow_two_of_testBit
      intro j hj
      change Word.bit (Word.slide w (x.length - 1) b) j = false
      rw [Word.bit_slide w (by omega), decide_eq_false (by omega), Bool.false_and, Bool.or_false]
      exact Nat.testBit_lt_two_pow
        (Nat.lt_of_lt_of_le hv (Nat.pow_le_pow_right (by decide) (by omega)))
    | wide v =>
      rw [h] at hv
      apply Bits.put_lt _ (by omega)
      rw [Nat.shiftRight_eq_div_pow]
      exact Nat.lt_of_le_of_lt (Nat.div_le_self _ _) hv

@[simp] theorem length_zeros (length : Nat) : (zeros length).length = length := rfl

@[simp] theorem length_ofNat (length v : Nat) : (ofNat length v).length = length := rfl

@[simp] theorem length_ofWord (length : Nat) (w : UInt64) : (ofWord length w).length = length := rfl

@[simp] theorem length_ofBits (bits : List Bool) : (ofBits bits).length = bits.length := rfl

@[simp] theorem length_put (x : BitVector) (i : Nat) (b : Bool) (hi : i < x.length) :
    (x.put i b hi).length = x.length := rfl

@[simp] theorem length_slide (x : BitVector) (b : Bool) (hx : 0 < x.length) :
    (x.slide b hx).length = x.length := rfl

@[simp] theorem length_toList (x : BitVector) : x.toList.length = x.length := by
  simp [toList]

theorem length_set {x y : BitVector} {i value : Nat} (h : x.set i value = .ok y) :
    y.length = x.length := by
  unfold set at h
  split at h
  · exact nomatch h
  · split at h
    · cases h; rfl
    · exact nomatch h

end BitVector

end Keystream
