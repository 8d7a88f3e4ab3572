import Keystream.Proofs.InnerProduct
import Mathlib.Algebra.GroupWithZero.Nat

/-!
# Vectors as lists of bits

A vector is one list of bits, whichever operations have built it and whether a word or a number
holds it. `Built` pairs vectors with the lists that the same operations make of lists; `Shows` says
that every answer a vector gives is the answer of a list.
-/

namespace Keystream

theorem Bits.sum_zipIdx (bits : List Bool) (k : Nat) :
    ((bits.zipIdx k).map fun e : Bool × Nat => e.1.toNat * 2 ^ e.2).sum = 2 ^ k * toNat bits := by
  induction bits generalizing k with
  | nil => rfl
  | cons b bits ih =>
    rw [List.zipIdx_cons, List.map_cons, List.sum_cons, ih, toNat_cons, Nat.pow_succ,
      Nat.mul_add, Nat.mul_comm b.toNat, Nat.mul_assoc, Nat.add_comm]

/-- Each bit counts as the power of two at its position. -/
theorem Bits.toNat_eq_sum (bits : List Bool) :
    toNat bits = (bits.zipIdx.map fun e : Bool × Nat => e.1.toNat * 2 ^ e.2).sum := by
  rw [sum_zipIdx, Nat.pow_zero, Nat.one_mul]

theorem readBits_eq (values : List Nat) :
    readBits values =
      match values.find? (1 < ·) with
      | some value => .error (.invalidBit value)
      | none => .ok (values.map (· == 1)) := by
  unfold readBits
  induction values with
  | nil => rfl
  | cons value values ih =>
    rw [List.mapM_cons, ih, readBit, List.find?_cons]
    by_cases h : value ≤ 1
    · rw [if_pos h, decide_eq_false (Nat.not_lt.2 h)]
      cases values.find? (1 < ·) <;> rfl
    · rw [if_neg h, decide_eq_true (Nat.lt_of_not_le h)]
      rfl

namespace BitVector

theorem toNat_toList (x : BitVector) : Bits.toNat x.toList = x.toNat := by
  rw [← toNat_ofBits, ofBits_toList]

theorem ones_eq_count (x : BitVector) : x.ones = x.toList.count true := by
  have hones : x.ones = Bits.ones x.toNat := by
    unfold ones toNat
    cases x.storage <;> rfl
  have hbits : (· == true) ∘ x.bit = x.toNat.testBit := by
    funext i
    rw [Function.comp_apply, beq_true, bit_eq_testBit]
  rw [hones, Bits.ones_eq_countP x.toNat_lt, toList, List.count_eq_countP, List.countP_map, hbits]

theorem toList_zeros (length : Nat) : (zeros length).toList = List.replicate length false := by
  rw [List.eq_replicate_iff]
  refine ⟨length_toList _, ?_⟩
  intro b hb
  obtain ⟨i, -, rfl⟩ := List.mem_map.1 hb
  exact bit_zeros length i

theorem toList_ofNat (length v : Nat) : (ofNat length v).toList = Bits.ofNat length v := by
  apply List.map_congr_left
  intro i hi
  have hlt : i < length := List.mem_range.1 hi
  rw [bit_ofNat, decide_eq_true hlt, Bool.true_and]

theorem toList_ofWord (length : Nat) (w : UInt64) :
    (ofWord length w).toList = (List.range length).map (Word.bit w) := by
  apply List.map_congr_left
  intro i hi
  have hlt : i < length := List.mem_range.1 hi
  rw [bit_ofWord, decide_eq_true hlt, Bool.true_and]

theorem toList_put (x : BitVector) (i : Nat) (b : Bool) (hi : i < x.length) :
    (x.put i b hi).toList = x.toList.set i b := by
  apply List.ext_getElem?
  intro j
  rw [getElem?_toList, List.getElem?_set, getElem?_toList, length_put, length_toList, bit_put]
  by_cases h : i = j
  · subst h
    rw [if_pos hi, if_pos rfl, if_pos rfl, if_pos hi]
  · rw [if_neg h, if_neg (Ne.symm h)]

theorem toList_slide (x : BitVector) (b : Bool) (hx : 0 < x.length) :
    (x.slide b hx).toList = x.toList.tail ++ [b] := by
  apply List.ext_getElem?
  intro i
  rw [getElem?_toList, length_slide, bit_slide, List.getElem?_append, List.getElem?_tail,
    List.length_tail, length_toList, getElem?_toList]
  by_cases hi : i + 1 < x.length
  · rw [if_pos (by omega), if_neg (by omega), if_pos (by omega), if_pos hi]
  · rw [if_neg (by omega : ¬ i < x.length - 1)]
    by_cases htop : i + 1 = x.length
    · rw [if_pos (by omega), if_pos htop, show i - (x.length - 1) = 0 by omega]
      rfl
    · rw [if_neg (by omega), List.getElem?_eq_none (by rw [List.length_singleton]; omega)]

theorem map_toList_set (x : BitVector) (i value : Nat) :
    (x.set i value).map toList =
      if 1 < value then .error (.invalidBit value)
      else if i < x.length then .ok (x.toList.set i (value == 1))
      else .error (.indexOutOfRange i x.length) := by
  rw [set_eq]
  by_cases hv : 1 < value
  · rw [if_pos hv, if_pos hv]
    rfl
  · rw [if_neg hv, if_neg hv]
    by_cases hi : i < x.length
    · rw [dif_pos hi, if_pos hi, ← x.toList_put i (value == 1) hi]
      rfl
    · rw [dif_neg hi, if_neg hi]
      rfl

theorem toList_of_set {x y : BitVector} {i value : Nat} (h : x.set i value = .ok y) :
    y.toList = x.toList.set i (value == 1) := by
  have hmap := x.map_toList_set i value
  rw [h] at hmap
  split at hmap
  · cases hmap
  · split at hmap
    · exact Except.ok.inj hmap
    · cases hmap

theorem ofNumbers_eq (values : List Nat) :
    ofNumbers values =
      match values.find? (1 < ·) with
      | some value => .error (.invalidBit value)
      | none => .ok (ofBits (values.map (· == 1))) := by
  rw [ofNumbers, readBits_eq]
  cases values.find? (1 < ·) <;> rfl

theorem toList_of_ofNumbers {values : List Nat} {x : BitVector} (h : ofNumbers values = .ok x) :
    x.toList = values.map (· == 1) := by
  rw [ofNumbers_eq] at h
  split at h
  · cases h
  · obtain rfl := Except.ok.inj h
    exact toList_ofBits _

/-- Numbers that are bits are read back as these bits. -/
theorem ofNumbers_toNat (bits : List Bool) :
    ofNumbers (bits.map Bool.toNat) = .ok (ofBits bits) := by
  have hnone : (bits.map Bool.toNat).find? (1 < ·) = none := by
    rw [List.find?_eq_none]
    intro value hvalue
    obtain ⟨b, -, rfl⟩ := List.mem_map.1 hvalue
    cases b <;> decide
  have hbits : (bits.map Bool.toNat).map (· == 1) = bits := by
    rw [List.map_map]
    apply List.map_id''
    intro b
    cases b <;> rfl
  rw [ofNumbers_eq, hnone, hbits]

theorem dot_eq_zip {x y : BitVector} (h : x.length = y.length) :
    x.dot y = paritySum (x.toList.zip y.toList) fun e => e.1 && e.2 := by
  rw [dot_eq_paritySum h, toList, toList, ← h, List.zip_map', paritySum_map]

theorem toNat_lowWord (x : BitVector) : x.lowWord.toNat = x.toNat % 2 ^ (64 : Nat) := by
  unfold lowWord toNat
  cases x.storage with
  | word w => exact (Nat.mod_eq_of_lt w.toNat_lt).symm
  | wide v => exact UInt64.toNat_ofNat'

theorem toWord_eq_ok_iff (x : BitVector) (w : UInt64) :
    x.toWord = .ok w ↔ x.length ≤ 64 ∧ w.toNat = x.toNat := by
  unfold toWord
  split
  · next h =>
    have hlt : x.toNat < 2 ^ 64 :=
      Nat.lt_of_lt_of_le x.toNat_lt (Nat.pow_le_pow_right Nat.two_pos h)
    rw [Except.ok.injEq, ← UInt64.toNat_inj, toNat_lowWord, Nat.mod_eq_of_lt hlt, eq_comm]
    exact (and_iff_right h).symm
  · next h => exact iff_of_false nofun fun hw => h hw.1

/-- Vectors, each with the list of bits that the operations it is built by make of lists. -/
inductive Built : BitVector → List Bool → Prop where
  | zeros (length : Nat) : Built (zeros length) (List.replicate length false)
  | ofNumbers {values : List Nat} {x : BitVector} (h : ofNumbers values = .ok x) :
      Built x (values.map (· == 1))
  | ofWord (length : Nat) (w : UInt64) :
      Built (ofWord length w) ((List.range length).map (Word.bit w))
  | ofNat (length v : Nat) : Built (ofNat length v) (Bits.ofNat length v)
  | set {x y : BitVector} {bits : List Bool} {i value : Nat} (hx : Built x bits)
      (h : x.set i value = .ok y) : Built y (bits.set i (value == 1))
  | slide {x : BitVector} {bits : List Bool} (hx : Built x bits) (b : Bool)
      (hpos : 0 < x.length) : Built (x.slide b hpos) (bits.tail ++ [b])

theorem Built.toList_eq {x : BitVector} {bits : List Bool} (h : Built x bits) :
    x.toList = bits := by
  induction h with
  | zeros length => exact toList_zeros length
  | ofNumbers h => exact toList_of_ofNumbers h
  | ofWord length w => exact toList_ofWord length w
  | ofNat length v => exact toList_ofNat length v
  | set _ h ih => rw [toList_of_set h, ih]
  | slide _ b hpos ih => rw [toList_slide, ih]

/-- The vector is kept as its length asks for, gives the answers of the list, and can be rebuilt
from them. -/
structure Shows (x : BitVector) (bits : List Bool) : Prop where
  length_eq : x.length = bits.length
  isWord_iff : x.storage.isWord = true ↔ bits.length ≤ 64
  value_lt : x.storage.value < 2 ^ bits.length
  get_eq : ∀ i, x.get i =
    match bits[i]? with
    | some b => .ok b
    | none => .error (.indexOutOfRange i bits.length)
  toList_eq : x.toList = bits
  text_eq : x.text = String.ofList (bits.reverse.map fun b => if b then '1' else '0')
  ones_eq : x.ones = bits.count true
  toNat_eq : x.toNat = (bits.zipIdx.map fun e : Bool × Nat => e.1.toNat * 2 ^ e.2).sum
  toUInt8_eq : x.toUInt8.toNat = x.toNat % 2 ^ (8 : Nat)
  toUInt16_eq : x.toUInt16.toNat = x.toNat % 2 ^ (16 : Nat)
  toUInt32_eq : x.toUInt32.toNat = x.toNat % 2 ^ (32 : Nat)
  lowWord_eq : x.lowWord.toNat = x.toNat % 2 ^ (64 : Nat)
  toWord_eq_ok_iff : ∀ w : UInt64, x.toWord = .ok w ↔ bits.length ≤ 64 ∧ w.toNat = x.toNat
  ofNumbers_eq : BitVector.ofNumbers (bits.map Bool.toNat) = .ok x
  ofNat_eq : BitVector.ofNat bits.length x.toNat = x

theorem shows_toList (x : BitVector) : x.Shows x.toList where
  length_eq := x.length_toList.symm
  isWord_iff := by rw [x.length_toList, x.isWord_iff]
  value_lt := by rw [x.length_toList]; exact x.value_lt
  get_eq := by
    intro i
    rw [get, getElem?_toList, length_toList]
    split <;> rfl
  toList_eq := rfl
  text_eq := rfl
  ones_eq := x.ones_eq_count
  toNat_eq := by rw [← Bits.toNat_eq_sum, toNat_toList]
  toUInt8_eq := by
    rw [toUInt8, UInt64.toNat_toUInt8, toNat_lowWord, Nat.mod_mod_of_dvd _ (by decide)]
  toUInt16_eq := by
    rw [toUInt16, UInt64.toNat_toUInt16, toNat_lowWord, Nat.mod_mod_of_dvd _ (by decide)]
  toUInt32_eq := by
    rw [toUInt32, UInt64.toNat_toUInt32, toNat_lowWord, Nat.mod_mod_of_dvd _ (by decide)]
  lowWord_eq := x.toNat_lowWord
  toWord_eq_ok_iff := by rw [length_toList]; exact x.toWord_eq_ok_iff
  ofNumbers_eq := by rw [ofNumbers_toNat, ofBits_toList]
  ofNat_eq := by
    apply ext_toNat (length_toList x)
    rw [toNat_ofNat, length_toList, Nat.mod_eq_of_lt x.toNat_lt]

/-- However a vector has been built, all its answers are those of one list of bits: two vectors with
one list are the same, updates act on the list, and inner products are those of the lists. -/
theorem built_refines_list {x : BitVector} {bits : List Bool} (h : Built x bits) :
    x.Shows bits ∧
    (∀ i value, (x.set i value).map toList =
      if 1 < value then .error (.invalidBit value)
      else if i < bits.length then .ok (bits.set i (value == 1))
      else .error (.indexOutOfRange i bits.length)) ∧
    (∀ b hpos, (x.slide b hpos).toList = bits.tail ++ [b]) ∧
    ∀ y bits', Built y bits' →
      (x = y ↔ bits = bits') ∧
      (bits.length = bits'.length →
        x.dot y = paritySum (bits.zip bits') fun e => e.1 && e.2) := by
  obtain rfl := h.toList_eq
  refine ⟨x.shows_toList, ?_, x.toList_slide, ?_⟩
  · intro i value
    rw [length_toList, map_toList_set]
  · intro y bits' hy
    obtain rfl := hy.toList_eq
    refine ⟨⟨congrArg toList, ext_toList⟩, ?_⟩
    intro hl
    rw [length_toList, length_toList] at hl
    exact dot_eq_zip hl

/-- A one set in 65 zeros and a one moved in behind it, and the same vector from a number that is
too long. -/
theorem built_refines_list_example :
    let bits := ((List.replicate 65 false).set 63 (1 == 1)).tail ++ [true]
    let y := ofNat 65 0x34000000000000000
    ∃ x, Built x bits ∧ Built y (Bits.ofNat 65 0x34000000000000000) ∧
      x.storage.isWord = false ∧ x.get 62 = .ok true ∧
      x.get 65 = .error (.indexOutOfRange 65 65) ∧ x.ones = 2 ∧ x = y ∧ x.dot y = false := by
  intro bits y
  obtain ⟨z, hz⟩ : ∃ z, (zeros 65).set 63 1 = .ok z := ⟨_, rfl⟩
  have hpos : 0 < z.length := by
    rw [length_set hz]
    decide
  have hx : Built (z.slide true hpos) bits := .slide (.set (.zeros 65) hz) true hpos
  have hy : Built y _ := .ofNat 65 0x34000000000000000
  obtain ⟨hshows, -, -, hpair⟩ := built_refines_list hx
  obtain ⟨heq, hdot⟩ := hpair y _ hy
  have hword : (z.slide true hpos).storage.isWord ≠ true := by
    rw [ne_eq, hshows.isWord_iff]
    decide
  have hin : bits[62]? = some true := by decide +kernel
  have hout : bits[65]? = none := by decide +kernel
  refine ⟨_, hx, hy, Bool.eq_false_iff.2 hword, ?_, ?_, ?_, ?_, ?_⟩
  · rw [hshows.get_eq, hin]
  · rw [hshows.get_eq, hout]
    rfl
  · rw [hshows.ones_eq]
    decide +kernel
  · exact heq.2 (by decide +kernel)
  · rw [hdot (by decide +kernel)]
    decide +kernel

end BitVector

end Keystream
