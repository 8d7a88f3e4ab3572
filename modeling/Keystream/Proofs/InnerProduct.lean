import Keystream.BitVector.Lemmas
import Keystream.Proofs.ParitySum

/-!
# Ones and inner products

The ones of a number are the bits set below any bound of its length, so its parity is the sum of
these bits. The inner product of two vectors of one length is the sum of the products of their bits,
whichever way they are stored.
-/

namespace Keystream

theorem Bits.ones_eq_countP {n v : Nat} (hv : v < 2 ^ n) :
    ones v = (List.range n).countP v.testBit := by
  induction n generalizing v with
  | zero =>
    obtain rfl : v = 0 := by omega
    exact ones_zero
  | succ n ih =>
    have hhalf : v / 2 < 2 ^ n := by
      rw [Nat.pow_succ] at hv
      omega
    have htail : v.testBit ∘ Nat.succ = (v / 2).testBit := funext (Nat.testBit_succ v)
    rw [ones_eq_half_add, ih hhalf, List.range_succ_eq_map, List.countP_cons, List.countP_map,
      htail, Nat.testBit_zero]
    rcases Nat.mod_two_eq_zero_or_one v with h | h <;> simp [h]

theorem Bits.parity_eq_paritySum {n v : Nat} (hv : v < 2 ^ n) :
    parity v = paritySum (List.range n) v.testBit := by
  rw [parity, ones_eq_countP hv, paritySum_eq_countP]

namespace BitVector

theorem dot_eq_parity (x y : BitVector) : x.dot y = Bits.parity (x.toNat &&& y.toNat) := by
  unfold dot toNat
  split
  · next v w hv hw =>
    rw [hv, hw, Storage.value, Storage.value, ← UInt64.toNat_and]
    rfl
  · rfl

theorem dot_eq_paritySum {x y : BitVector} (h : x.length = y.length) :
    x.dot y = paritySum (List.range x.length) fun i => x.bit i && y.bit i := by
  have hlt : x.toNat &&& y.toNat < 2 ^ x.length := Nat.and_lt_two_pow _ (h ▸ y.toNat_lt)
  rw [dot_eq_parity, Bits.parity_eq_paritySum hlt]
  apply paritySum_congr
  intro i _
  rw [Nat.testBit_and, bit_eq_testBit, bit_eq_testBit]

end BitVector

end Keystream
