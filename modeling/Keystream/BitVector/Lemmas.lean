import Keystream.BitVector.Basic

/-!
# Bits of bit vectors

What every operation does to `BitVector.bit`, whichever way the bits are stored, and that a vector
is determined by its length and its bits.
-/

namespace Keystream.BitVector

theorem bit_of_le {x : BitVector} {i : Nat} (h : x.length ≤ i) : x.bit i = false := by
  rw [bit_eq_testBit]
  exact Bits.testBit_of_le x.toNat_lt h

theorem ext_toNat {x y : BitVector} (hl : x.length = y.length) (hv : x.toNat = y.toNat) :
    x = y := by
  obtain ⟨n, s, hs, hsv⟩ := x
  obtain ⟨m, t, ht, htv⟩ := y
  cases (show n = m from hl)
  have hst : s.isWord = t.isWord := by
    rw [Bool.eq_iff_iff]
    exact hs.trans ht.symm
  have : s = t := by
    cases s with
    | word v =>
      cases t with
      | word w => exact congrArg Storage.word (UInt64.toNat_inj.1 hv)
      | wide w => exact Bool.noConfusion hst
    | wide v =>
      cases t with
      | word w => exact Bool.noConfusion hst
      | wide w => exact congrArg Storage.wide hv
  subst this
  rfl

theorem ext_bit {x y : BitVector} (hl : x.length = y.length)
    (h : ∀ i, i < x.length → x.bit i = y.bit i) : x = y := by
  apply ext_toNat hl
  apply Nat.eq_of_testBit_eq
  intro i
  rw [← bit_eq_testBit, ← bit_eq_testBit]
  by_cases hi : i < x.length
  · exact h i hi
  · rw [bit_of_le (by omega), bit_of_le (by omega)]

theorem toNat_zeros (length : Nat) : (zeros length).toNat = 0 := by
  unfold toNat zeros
  dsimp only
  split <;> rfl

theorem toNat_ofNat (length v : Nat) : (ofNat length v).toNat = v % 2 ^ length := by
  unfold toNat ofNat
  dsimp only
  have h := Bits.low_lt length v
  rw [← Bits.low_eq_mod]
  split
  · next hl =>
    have : 2 ^ length ≤ 2 ^ 64 := Nat.pow_le_pow_right (by decide) hl
    simp only [Storage.value, UInt64.toNat_ofNat']
    exact Nat.mod_eq_of_lt (by omega)
  · rfl

theorem toNat_ofWord (length : Nat) (w : UInt64) :
    (ofWord length w).toNat = w.toNat % 2 ^ length := by
  unfold toNat ofWord
  dsimp only
  split
  · exact Word.toNat_low length w
  · next hl =>
    have : 2 ^ 64 ≤ 2 ^ length := Nat.pow_le_pow_right (by decide) (by omega)
    exact (Nat.mod_eq_of_lt (Nat.lt_of_lt_of_le w.toNat_lt this)).symm

theorem toNat_ofBits (bits : List Bool) : (ofBits bits).toNat = Bits.toNat bits := by
  rw [ofBits, toNat_ofNat, Nat.mod_eq_of_lt (Bits.toNat_lt bits)]

@[simp] theorem bit_zeros (length i : Nat) : (zeros length).bit i = false := by
  rw [bit_eq_testBit, toNat_zeros, Nat.zero_testBit]

theorem bit_ofNat (length v i : Nat) :
    (ofNat length v).bit i = (decide (i < length) && v.testBit i) := by
  rw [bit_eq_testBit, toNat_ofNat, Nat.testBit_mod_two_pow]

theorem bit_ofWord (length : Nat) (w : UInt64) (i : Nat) :
    (ofWord length w).bit i = (decide (i < length) && Word.bit w i) := by
  rw [bit_eq_testBit, toNat_ofWord, Nat.testBit_mod_two_pow, Word.bit]

theorem bit_ofBits (bits : List Bool) (i : Nat) : (ofBits bits).bit i = (bits[i]?).getD false := by
  rw [bit_eq_testBit, toNat_ofBits, Bits.testBit_toNat]

theorem bit_put (x : BitVector) (i : Nat) (b : Bool) (hi : i < x.length) (j : Nat) :
    (x.put i b hi).bit j = if j = i then b else x.bit j := by
  have hw := x.isWord_iff
  unfold bit put
  dsimp only
  cases h : x.storage with
  | word w =>
    rw [h] at hw
    exact Word.bit_put w (Nat.lt_of_lt_of_le hi (hw.1 rfl)) b j
  | wide v => exact Bits.testBit_put v i j b

theorem bit_slide (x : BitVector) (b : Bool) (hx : 0 < x.length) (i : Nat) :
    (x.slide b hx).bit i = if i + 1 = x.length then b else x.bit (i + 1) := by
  have hw := x.isWord_iff
  have hv := x.value_lt
  unfold bit slide
  dsimp only
  cases h : x.storage with
  | word w =>
    rw [h] at hw hv
    have hl := hw.1 rfl
    have ht : x.length - 1 < 64 := by omega
    dsimp only
    rw [Word.bit_slide w ht]
    split
    · next hi =>
      have : Word.bit w (i + 1) = false := Nat.testBit_lt_two_pow (hi ▸ hv)
      rw [this, decide_eq_true (by omega), Bool.true_and, Bool.false_or]
    · rw [decide_eq_false (by omega), Bool.false_and, Bool.or_false]
  | wide v =>
    dsimp only
    rw [Bits.testBit_put, Nat.testBit_shiftRight, Nat.add_comm 1 i]
    by_cases hi : i + 1 = x.length
    · rw [if_pos hi, if_pos (by omega)]
    · rw [if_neg hi, if_neg (by omega)]

theorem set_eq (x : BitVector) (i value : Nat) :
    x.set i value =
      if 1 < value then .error (.invalidBit value)
      else if h : i < x.length then .ok (x.put i (value == 1) h)
      else .error (.indexOutOfRange i x.length) := by
  rw [set, readBit]
  by_cases hv : value ≤ 1
  · rw [if_pos hv, if_neg (Nat.not_lt.2 hv)]
  · rw [if_neg hv, if_pos (Nat.lt_of_not_le hv)]

theorem getElem?_toList (x : BitVector) (i : Nat) :
    x.toList[i]? = if i < x.length then some (x.bit i) else none := by
  rw [toList, List.getElem?_map]
  split
  · next h => rw [List.getElem?_range h, Option.map_some]
  · next h => rw [List.getElem?_eq_none (by rw [List.length_range]; omega), Option.map_none]

theorem ext_toList {x y : BitVector} (h : x.toList = y.toList) : x = y := by
  have hl : x.length = y.length := by
    rw [← length_toList, h, length_toList]
  apply ext_bit hl
  intro i hi
  have hx := x.getElem?_toList i
  rw [h, getElem?_toList, if_pos hi, if_pos (hl ▸ hi)] at hx
  exact (Option.some.inj hx).symm

@[simp] theorem toList_ofBits (bits : List Bool) : (ofBits bits).toList = bits := by
  apply List.ext_getElem?
  intro i
  rw [getElem?_toList, length_ofBits, bit_ofBits]
  split
  · next h => rw [List.getElem?_eq_getElem h, Option.getD_some]
  · next h => rw [List.getElem?_eq_none (Nat.le_of_not_lt h)]

@[simp] theorem ofBits_toList (x : BitVector) : ofBits x.toList = x :=
  ext_toList (toList_ofBits x.toList)

end Keystream.BitVector
