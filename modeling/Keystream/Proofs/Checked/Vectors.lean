import Keystream.Proofs.BitLists
import Keystream.Proofs.Checked.Basic

/-!
# Bit vectors without faults

Shifts of words stay below 64 because a vector that is kept in a word has at most 64 bits, and every
index below its length. Each checked operation gives what the operation itself gives.
-/

namespace Keystream

/-- The number put together bit by bit from the positions of the ones. -/
def Bits.collect (bits : List Bool) : Nat :=
  ((bits.zipIdx.filter Prod.fst).map Prod.snd).foldl (fun v i => put v i true) 0

theorem Bits.collect_eq (bits : List Bool) : collect bits = toNat bits := by
  apply Nat.eq_of_testBit_eq
  intro i
  rw [collect, testBit_foldl_put, Nat.zero_testBit, Bool.false_or, testBit_toNat, Bool.eq_iff_iff,
    decide_eq_true_eq]
  cases h : bits[i]? <;> simp [List.mem_zipIdx_iff_getElem?, h]

namespace BitVector

open Checked

/-- The vector with this storage, which must be of the kind and below the bound that the length sets. -/
def assemble (length : Nat) (s : Storage) : Checked BitVector :=
  if h : (s.isWord = true ↔ length ≤ 64) ∧ s.value < 2 ^ length then .ok ⟨length, s, h.1, h.2⟩
  else fault .malformed

theorem assemble_word (x : BitVector) {w : UInt64} (hl : x.length ≤ 64) (hv : w.toNat = x.toNat) :
    assemble x.length (.word w) = .ok x := by
  have hw : w.toNat < 2 ^ x.length := hv ▸ x.toNat_lt
  rw [assemble, dif_pos ⟨iff_of_true rfl hl, hw⟩]
  exact congrArg Except.ok (ext_toNat rfl hv)

theorem assemble_wide (x : BitVector) {v : Nat} (hl : 64 < x.length) (hv : v = x.toNat) :
    assemble x.length (.wide v) = .ok x := by
  have hw : v < 2 ^ x.length := hv ▸ x.toNat_lt
  rw [assemble, dif_pos ⟨iff_of_false (by rintro ⟨⟩) (Nat.not_le.2 hl), hw⟩]
  exact congrArg Except.ok (ext_toNat rfl hv)

theorem length_le_of_word {x : BitVector} {w : UInt64} (h : x.storage = .word w) :
    x.length ≤ 64 :=
  x.isWord_iff.1 (h ▸ rfl)

theorem lt_length_of_wide {x : BitVector} {v : Nat} (h : x.storage = .wide v) : 64 < x.length := by
  apply Nat.lt_of_not_le
  intro hl
  have hw := x.isWord_iff.2 hl
  rw [h] at hw
  cases hw

def checkedZeros (length : Nat) : Checked BitVector :=
  assemble length (if length ≤ 64 then .word 0 else .wide 0)

theorem checkedZeros_eq (length : Nat) : checkedZeros length = .ok (zeros length) := by
  unfold checkedZeros
  have hv := toNat_zeros length
  split
  · next h => exact assemble_word (zeros length) h hv.symm
  · next h => exact assemble_wide (zeros length) (Nat.lt_of_not_le h) hv.symm

/-- Sets the bits of a word from numbers, the first of them at position `i`. -/
def writeNumbers (w : UInt64) (i : Nat) : List Nat → Checked UInt64
  | [] => .ok w
  | value :: values => do
    writeNumbers (w ||| (← shiftLeft (UInt64.ofNat value) i)) (i + 1) values

/-- The vector of bits written as numbers. -/
def checkedOfNumbers (values : List Nat) : Checked BitVector :=
  match values.find? (1 < ·) with
  | some value => fail (.invalidBit value)
  | none =>
    if values.length ≤ 64 then do
      assemble values.length (.word (← writeNumbers 0 0 values))
    else assemble values.length (.wide (Bits.collect (values.map (· == 1))))

theorem ofNat_bit {value : Nat} (h : value ≤ 1) :
    UInt64.ofNat value = (value == 1).toUInt64 :=
  match value, h with
  | 0, _ => rfl
  | 1, _ => rfl

theorem writeNumbers_eq {values : List Nat} (h : ∀ v ∈ values, v ≤ 1) (w : UInt64) {i : Nat}
    (hi : i + values.length ≤ 64) :
    ∃ v, writeNumbers w i values = .ok v ∧
      ∀ j, j < 64 → Word.bit v j =
        (Word.bit w j || decide (i ≤ j) && ((values.map (· == 1))[j - i]?).getD false) := by
  induction values generalizing w i with
  | nil => exact ⟨w, rfl, fun j _ => by simp⟩
  | cons value values ih =>
    rw [List.length_cons] at hi
    have hlt : i < 64 := by omega
    have hvalue := ofNat_bit (h value List.mem_cons_self)
    obtain ⟨v, hv, hbits⟩ := ih (fun u hu => h u (List.mem_cons_of_mem value hu))
      (w ||| UInt64.ofNat value <<< UInt64.ofNat i) (show i + 1 + values.length ≤ 64 by omega)
    refine ⟨v, ?_, ?_⟩
    · rw [writeNumbers, shiftLeft_of_lt hlt, ok_bind, hv]
    · intro j hj
      rw [hbits j hj, Word.bit_or, hvalue, Word.bit_toUInt64_shiftLeft _ hlt, List.map_cons]
      rcases Nat.lt_trichotomy i j with hij | rfl | hij
      · rw [show j - i = (j - (i + 1)) + 1 by omega, List.getElem?_cons_succ]
        simp [Nat.succ_le_of_lt hij, Nat.le_of_lt hij, Nat.ne_of_lt hij]
      · rw [decide_eq_false (Nat.not_succ_le_self i)]
        simp
      · simp [Nat.not_le.2 hij, Nat.ne_of_gt hij, show ¬ i + 1 ≤ j by omega]

theorem exists_writeNumbers {values : List Nat} (h : ∀ v ∈ values, v ≤ 1)
    (hlength : values.length ≤ 64) :
    ∃ w, writeNumbers 0 0 values = .ok w ∧ w.toNat = Bits.toNat (values.map (· == 1)) := by
  have hroom : 0 + values.length ≤ 64 := by omega
  obtain ⟨w, hw, hbits⟩ := writeNumbers_eq h 0 hroom
  refine ⟨w, hw, Nat.eq_of_testBit_eq fun j => ?_⟩
  rw [Bits.testBit_toNat]
  by_cases hj : j < 64
  · simpa [Word.bit] using hbits j hj
  · have hout : (values.map (· == 1))[j]? = none :=
      List.getElem?_eq_none (by rw [List.length_map]; omega)
    rw [hout]
    exact Word.bit_of_le (Nat.le_of_not_lt hj)

theorem checkedOfNumbers_eq (values : List Nat) :
    checkedOfNumbers values = faultless (ofNumbers values) := by
  rw [checkedOfNumbers, ofNumbers_eq]
  cases hfind : values.find? (1 < ·) with
  | some value => rfl
  | none =>
    have hvalues : ∀ v ∈ values, v ≤ 1 := by simpa using hfind
    let x := ofBits (values.map (· == 1))
    have hlength : values.length = x.length := by
      rw [length_ofBits, List.length_map]
    change _ = Except.ok x
    dsimp only
    rw [hlength]
    split
    · next hle =>
      obtain ⟨w, hw, hv⟩ := exists_writeNumbers hvalues (hlength ▸ hle)
      rw [hw, ok_bind]
      apply assemble_word x hle
      rw [hv, toNat_ofBits]
    · next hlt =>
      apply assemble_wide x (Nat.lt_of_not_le hlt)
      rw [Bits.collect_eq, toNat_ofBits]

/-- The lowest `length` bits of a word, followed by zeros beyond 64 bits. -/
def checkedOfWord (length : Nat) (w : UInt64) : Checked BitVector :=
  if length ≤ 64 then do
    assemble length (.word (w &&& (← lowMask length)))
  else assemble length (.wide w.toNat)

theorem checkedOfWord_eq (length : Nat) (w : UInt64) :
    checkedOfWord length w = .ok (ofWord length w) := by
  unfold checkedOfWord
  split
  · next h =>
    rw [lowMask_eq, ok_bind]
    apply assemble_word (ofWord length w) h
    rw [toNat_ofWord]
    exact Word.toNat_low length w
  · next h =>
    apply assemble_wide (ofWord length w) (Nat.lt_of_not_le h)
    rw [toNat_ofWord]
    have : 2 ^ (64 : Nat) ≤ 2 ^ length := Nat.pow_le_pow_right (by decide) (by omega)
    exact (Nat.mod_eq_of_lt (Nat.lt_of_lt_of_le w.toNat_lt this)).symm

/-- The lowest `length` bits of a number. -/
def checkedOfNat (length v : Nat) : Checked BitVector :=
  if length ≤ 64 then do
    assemble length (.word (UInt64.ofNat v &&& (← lowMask length)))
  else do
    assemble length (.wide (v &&& (← sub (2 ^ length) 1)))

theorem checkedOfNat_eq (length v : Nat) : checkedOfNat length v = .ok (ofNat length v) := by
  unfold checkedOfNat
  split
  · next h =>
    rw [lowMask_eq, ok_bind]
    apply assemble_word (ofNat length v) h
    rw [toNat_ofNat]
    have hdvd : 2 ^ length ∣ 2 ^ (64 : Nat) := Nat.pow_dvd_pow 2 h
    change (Word.low length (UInt64.ofNat v)).toNat = _
    rw [Word.toNat_low, UInt64.toNat_ofNat', Nat.mod_mod_of_dvd _ hdvd]
  · next h =>
    rw [sub_of_le (Nat.two_pow_pos length), ok_bind]
    apply assemble_wide (ofNat length v) (Nat.lt_of_not_le h)
    rw [toNat_ofNat]
    exact Nat.and_two_pow_sub_one_eq_mod v length

/-- Bit `i`, which is assumed to be below the length. -/
def checkedBit (x : BitVector) (i : Nat) : Checked Bool :=
  match x.storage with
  | .word w => wordBit w i
  | .wide v => .ok (v.testBit i)

theorem checkedBit_of_lt {x : BitVector} {i : Nat} (h : i < x.length) :
    x.checkedBit i = .ok (x.bit i) := by
  unfold checkedBit bit
  cases hs : x.storage with
  | word w => exact wordBit_of_lt (Nat.lt_of_lt_of_le h (length_le_of_word hs)) w
  | wide v => rfl

def checkedGet (x : BitVector) (i : Nat) : Checked Bool :=
  if x.length ≤ i then fail (.indexOutOfRange i x.length) else x.checkedBit i

theorem checkedGet_eq (x : BitVector) (i : Nat) : x.checkedGet i = faultless (x.get i) := by
  unfold checkedGet get
  rcases Nat.lt_or_ge i x.length with h | h
  · rw [if_neg (Nat.not_le.2 h), if_pos h, checkedBit_of_lt h, faultless_ok]
  · rw [if_pos h, if_neg (Nat.not_lt.2 h), faultless_error]

/-- All bits, lowest index first. -/
def checkedList (x : BitVector) : Checked (List Bool) :=
  (List.range x.length).mapM x.checkedBit

theorem checkedList_eq (x : BitVector) : x.checkedList = .ok x.toList :=
  mapM_eq fun _ hi => checkedBit_of_lt (List.mem_range.1 hi)

/-- The bits as binary digits, highest index first. -/
def checkedText (x : BitVector) : Checked String := do
  let bits ← (List.range x.length).reverse.mapM x.checkedBit
  return String.ofList (bits.map fun b => if b then '1' else '0')

theorem checkedText_eq (x : BitVector) : x.checkedText = .ok x.text := by
  have hbits : (List.range x.length).reverse.mapM x.checkedBit = .ok x.toList.reverse := by
    rw [toList, ← List.map_reverse]
    exact mapM_eq fun _ hi => checkedBit_of_lt (List.mem_range.1 (List.mem_reverse.1 hi))
  simp only [checkedText, hbits, ok_bind, pure_eq, text]

/-- The vector with bit `i` replaced by the bit written as a number; the number is checked first. -/
def checkedSet (x : BitVector) (i value : Nat) : Checked BitVector :=
  if 1 < value then fail (.invalidBit value)
  else if x.length ≤ i then fail (.indexOutOfRange i x.length)
  else
    match x.storage with
    | .word w => do
      let hole ← single i
      let b ← shiftLeft (UInt64.ofNat value) i
      assemble x.length (.word ((w &&& ~~~hole) ||| b))
    | .wide v => assemble x.length (.wide (Bits.put v i (value == 1)))

theorem checkedSet_eq (x : BitVector) (i value : Nat) :
    x.checkedSet i value = faultless (x.set i value) := by
  rw [checkedSet, set_eq]
  split
  · rfl
  · next hvalue =>
    rcases Nat.lt_or_ge i x.length with hi | hi
    · rw [if_neg (Nat.not_le.2 hi), dif_pos hi, faultless_ok]
      cases hs : x.storage with
      | word w =>
        have hl := length_le_of_word hs
        have hlt : i < 64 := Nat.lt_of_lt_of_le hi hl
        simp only [single_of_lt hlt, shiftLeft_of_lt hlt, ok_bind,
          ofNat_bit (Nat.le_of_not_lt hvalue)]
        apply assemble_word (x.put i (value == 1) hi) hl
        simp only [toNat, put, hs]
        rfl
      | wide v =>
        have hl := lt_length_of_wide hs
        apply assemble_wide (x.put i (value == 1) hi) hl
        simp only [toNat, put, hs]
        rfl
    · rw [if_pos hi, dif_neg (Nat.not_lt.2 hi), faultless_error]

/-- The inner product modulo two, of two vectors that are assumed to be kept alike. -/
def checkedDot (x y : BitVector) : Checked Bool :=
  match x.storage, y.storage with
  | .word v, .word w => .ok (Word.parity (v &&& w))
  | .wide v, .wide w => .ok (Bits.parity (v &&& w))
  | _, _ => fault .mixedStorage

theorem isWord_eq_of_length {x y : BitVector} (h : x.length = y.length) :
    x.storage.isWord = y.storage.isWord := by
  rw [Bool.eq_iff_iff, x.isWord_iff, y.isWord_iff, h]

theorem checkedDot_eq {x y : BitVector} (h : x.length = y.length) :
    x.checkedDot y = .ok (x.dot y) := by
  have hkind := isWord_eq_of_length h
  unfold checkedDot dot
  cases hs : x.storage with
  | word v =>
    cases ht : y.storage with
    | word w => rfl
    | wide w =>
      rw [hs, ht] at hkind
      cases hkind
  | wide v =>
    cases ht : y.storage with
    | word w =>
      rw [hs, ht] at hkind
      cases hkind
    | wide w => rfl

/-- The vector without its first bit, followed by `b`. -/
def checkedSlide (x : BitVector) (b : Bool) : Checked BitVector := do
  let top ← sub x.length 1
  match x.storage with
  | .word w => do
    let low ← shiftRight w 1
    let high ← shiftLeft b.toUInt64 top
    assemble x.length (.word (low ||| high))
  | .wide v => assemble x.length (.wide (Bits.put (v >>> 1) top b))

theorem checkedSlide_eq {x : BitVector} (hx : 0 < x.length) (b : Bool) :
    x.checkedSlide b = .ok (x.slide b hx) := by
  rw [checkedSlide, sub_of_le hx, ok_bind]
  cases hs : x.storage with
  | word w =>
    have hl := length_le_of_word hs
    have htop : x.length - 1 < 64 := by omega
    have hone : 1 < 64 := by decide
    simp only [shiftRight_of_lt hone, shiftLeft_of_lt htop, ok_bind]
    apply assemble_word (x.slide b hx) hl
    simp only [toNat, slide, hs]
    rfl
  | wide v =>
    have hl := lt_length_of_wide hs
    apply assemble_wide (x.slide b hx) hl
    simp only [toNat, slide, hs]
    rfl

end BitVector

end Keystream
