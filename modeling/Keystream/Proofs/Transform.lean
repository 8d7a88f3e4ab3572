import Keystream.Proofs.PolynomialSum
import Keystream.Proofs.SubsetSum
import Keystream.Proofs.Tables

/-!
# The transforms of vectors and words

A pass over a vector overwrites the entries it reads from, in increasing order; entry `j` is updated
from an entry below it that the same pass leaves alone, so the pass is `passAt` on the old entries.
A pass on a word does the same to all 64 bits at once. Both transforms therefore give the subset
sums of their entries. Small tables rely on no more than `TransformsWords`, so coefficients are found
for every transform of words that has it.
-/

namespace Keystream.Moebius

section Vector

variable {n : Nat}

/-- Entry `j`, which is zero outside the vector. -/
def entry (bits : Vector Bool (2 ^ n)) (j : Nat) : Bool :=
  (bits.toList[j]?).getD false

theorem entry_of_lt (bits : Vector Bool (2 ^ n)) {j : Nat} (hj : j < 2 ^ n) :
    entry bits j = bits[j] := by
  simp [entry, hj]

theorem entry_of_le (bits : Vector Bool (2 ^ n)) {j : Nat} (hj : 2 ^ n ≤ j) :
    entry bits j = false := by
  rw [entry, List.getElem?_eq_none (by simpa using hj), Option.getD_none]

theorem entry_set (bits : Vector Bool (2 ^ n)) {j : Nat} (hj : j < 2 ^ n) (b : Bool) (k : Nat) :
    entry (bits.set j b) k = if k = j then b else entry bits k := by
  rcases Nat.lt_or_ge k (2 ^ n) with hk | hk
  · rw [entry_of_lt _ hk, entry_of_lt _ hk, Vector.getElem_set]
    simp only [eq_comm]
  · rw [entry_of_le _ hk, entry_of_le _ hk, if_neg (by omega)]

theorem entry_addWithout {i : Nat} (hi : i < n) (bits : Vector Bool (2 ^ n)) {j : Nat}
    (hj : j < 2 ^ n) (k : Nat) :
    entry (addWithout i hi bits j hj) k =
      if k = j then passAt i (entry bits) j else entry bits k := by
  unfold addWithout
  split
  · next hbit =>
    rw [entry_set, passAt, hbit, Bool.true_and, entry_of_lt _ hj, entry_of_lt _ (flip_lt hi hj)]
  · next hbit =>
    rw [passAt, Bool.eq_false_iff.2 hbit, Bool.false_and, Bool.xor_false]
    split
    · next h => rw [h]
    · rfl

theorem flip_eq_sub {i j : Nat} (hbit : j.testBit i = true) :
    2 ^ i ≤ j ∧ j ^^^ 2 ^ i = j - 2 ^ i := by
  have hodd : j / 2 ^ i % 2 = 1 := by
    rw [Nat.testBit_eq_decide_div_mod_eq] at hbit
    exact of_decide_eq_true hbit
  obtain ⟨q, hq⟩ : ∃ q, j / 2 ^ i = 2 * q + 1 := ⟨j / 2 ^ i / 2, by omega⟩
  have hy : j % 2 ^ i < 2 ^ i := Nat.mod_lt _ (Nat.two_pow_pos i)
  have hj : j = 2 ^ i * (2 * q + 1) + j % 2 ^ i := by rw [← hq, Nat.div_add_mod]
  have hflip := flip_add hy q
  rw [← hj] at hflip
  rw [Nat.mul_add, Nat.mul_one] at hj
  omega

/-- The partner of an index with variable `i` lies below it and has no partner itself. -/
theorem passAt_partner {i j : Nat} (g : Nat → Bool) (hbit : j.testBit i = true) :
    j ^^^ 2 ^ i < j ∧ passAt i g (j ^^^ 2 ^ i) = g (j ^^^ 2 ^ i) := by
  constructor
  · have hsub := flip_eq_sub hbit
    have := Nat.two_pow_pos i
    omega
  · rw [passAt, testBit_flip_self, hbit, Bool.not_true, Bool.false_and, Bool.xor_false]

/-- After the first `J` entries, those below `J` are new and the others still the old ones. -/
theorem entry_fold {i : Nat} (hi : i < n) (bits : Vector Bool (2 ^ n)) (J : Nat) (hJ : J ≤ 2 ^ n)
    (k : Nat) :
    entry (Nat.fold J (fun j hj bits => addWithout i hi bits j (Nat.lt_of_lt_of_le hj hJ)) bits) k =
      if k < J then passAt i (entry bits) k else entry bits k := by
  induction J generalizing k with
  | zero => rfl
  | succ J ih =>
    have ih := ih (Nat.le_of_succ_le hJ)
    rw [Nat.fold_succ, entry_addWithout]
    rcases Nat.lt_trichotomy k J with h | rfl | h
    · rw [if_neg (Nat.ne_of_lt h), ih, if_pos h, if_pos (Nat.lt_succ_of_lt h)]
    · rw [if_pos rfl, if_pos (Nat.lt_succ_self k), passAt, ih, if_neg (Nat.lt_irrefl k), passAt]
      congr 1
      cases hbit : k.testBit i with
      | false => rfl
      | true =>
        obtain ⟨hlt, hpartner⟩ := passAt_partner (entry bits) hbit
        rw [ih, if_pos hlt, hpartner]
    · rw [if_neg (Nat.ne_of_gt h), ih, if_neg (by omega), if_neg (by omega)]

theorem entry_pass {i : Nat} (hi : i < n) (bits : Vector Bool (2 ^ n)) :
    entry (pass i hi bits) = passAt i (entry bits) := by
  funext k
  refine (entry_fold hi bits (2 ^ n) (Nat.le_refl _) k).trans ?_
  rcases Nat.lt_or_ge k (2 ^ n) with hk | hk
  · rw [if_pos hk]
  · rw [if_neg (by omega), entry_of_le _ hk, passAt_of_le hi (fun _ => entry_of_le bits) hk]

theorem entry_passes (bits : Vector Bool (2 ^ n)) (k : Nat) (hk : k ≤ n) :
    entry (passes bits k hk) = subsetSums k (entry bits) := by
  induction k with
  | zero => rfl
  | succ k ih => rw [passes, entry_pass, ih, subsetSums]

/-- The packed outputs spread out, an entry for every input. -/
theorem entry_ofFn {packed : Nat} (h : packed < 2 ^ (2 ^ n : Nat)) :
    entry (Vector.ofFn fun j : Fin (2 ^ n) => packed.testBit j) = packed.testBit := by
  funext k
  rcases Nat.lt_or_ge k (2 ^ n) with hk | hk
  · rw [entry_of_lt _ hk, Vector.getElem_ofFn]
  · rw [entry_of_le _ hk]
    exact (Bits.testBit_of_le h hk).symm

theorem testBit_transformPacked {packed : Nat} (h : packed < 2 ^ (2 ^ n : Nat)) (j : Nat) :
    (transformPacked n packed).testBit j = subsetSums n packed.testBit j := by
  have hpasses := entry_passes (Vector.ofFn fun j : Fin (2 ^ n) => packed.testBit j) n
    (Nat.le_refl n)
  rw [entry_ofFn h] at hpasses
  rw [transformPacked, Bits.testBit_toNat, ← hpasses]
  rfl

end Vector

theorem bit_without {i j : Nat} (hi : i < 6) (hj : j < 64) :
    Word.bit (without i) j = !j.testBit i := by
  have h : ∀ i : Fin 6, ∀ j : Fin 64, Word.bit (without i) j = !Nat.testBit j i := by decide
  exact h ⟨i, hi⟩ ⟨j, hj⟩

theorem bit_passWord {i : Nat} (hi : i < 6) (w : UInt64) :
    Word.bit (passWord i w) = passAt i (Word.bit w) := by
  have hsize : 2 ^ i < 64 := Nat.pow_lt_pow_right (n := 6) (by decide) hi
  funext j
  rcases Nat.lt_or_ge j 64 with hj | hj
  · rw [passWord, Word.bit_xor, Word.bit_shiftLeft _ hsize hj, Word.bit_and,
      bit_without hi (Nat.lt_of_le_of_lt (Nat.sub_le j _) hj), passAt]
    congr 1
    cases hbit : j.testBit i with
    | true =>
      obtain ⟨hle, hsub⟩ := flip_eq_sub hbit
      have hpartner : (j - 2 ^ i).testBit i = false := by
        rw [← hsub, testBit_flip_self, hbit, Bool.not_true]
      rw [decide_eq_true hle, hpartner, hsub, Bool.not_false, Bool.and_true]
    | false =>
      rcases Nat.lt_or_ge j (2 ^ i) with hlt | hle
      · rw [decide_eq_false (Nat.not_le.2 hlt), Bool.false_and, Bool.false_and]
      · obtain ⟨k, rfl⟩ : ∃ k, j = 2 ^ i + k := ⟨j - 2 ^ i, by omega⟩
        rw [Nat.testBit_two_pow_add_eq, Bool.not_eq_false'] at hbit
        rw [Nat.add_sub_cancel_left, hbit, Bool.not_true, Bool.and_false, Bool.and_false,
          Bool.false_and]
  · have hzero : ∀ k, 2 ^ 6 ≤ k → Word.bit w k = false := fun _ => Word.bit_of_le
    rw [Word.bit_of_le hj, passAt_of_le hi hzero hj]

theorem bit_passesWord (w : UInt64) {k : Nat} (hk : k ≤ 6) :
    Word.bit (passesWord w k) = subsetSums k (Word.bit w) := by
  induction k with
  | zero => rfl
  | succ k ih => rw [passesWord, bit_passWord hk, ih (Nat.le_of_succ_le hk), subsetSums]

/-- What small tables ask of a transform of words: below `2 ^ n` it gives the sums over the included
positions. -/
def TransformsWords (transform : Nat → UInt64 → UInt64) : Prop :=
  ∀ n, 0 < n → n ≤ 6 → ∀ w : UInt64, w.toNat < 2 ^ (2 ^ n : Nat) → ∀ j, j < 2 ^ n →
    Word.bit (transform n w) j =
      paritySum (List.range (2 ^ n)) fun m => included m j && Word.bit w m

theorem transformsWords_transformWord : TransformsWords transformWord := by
  intro n _ hn w _ j hj
  rw [transformWord, bit_passesWord w hn, subsetSums_eq_paritySum_range _ hj]

end Keystream.Moebius

namespace Keystream.TruthTable

/-- Both kinds of table get the subset sums of their outputs for coefficients. -/
theorem testBit_coefficients {transform : Nat → UInt64 → UInt64}
    (htransform : Moebius.TransformsWords transform) (t : TruthTable) (m : Nat) :
    (t.coefficients transform).testBit m = Moebius.subsetSums t.arity t.lookup m := by
  cases t with
  | small t =>
    change Word.bit (Word.low (2 ^ t.arity) (transform t.arity t.outputs)) m = _
    rw [Word.bit_low]
    rcases Nat.lt_or_ge m (2 ^ t.arity) with hm | hm
    · rw [decide_eq_true hm, Bool.true_and, htransform _ t.arity_pos t.arity_le _ t.outputs_lt m hm]
      exact (Moebius.subsetSums_eq_paritySum_range _ hm).symm
    · have hzero : Moebius.subsetSums t.arity (lookup (.small t)) m = false :=
        Moebius.subsetSums_of_le (Nat.le_refl _) (fun _ => lookup_of_le (.small t)) hm
      rw [decide_eq_false (Nat.not_lt.2 hm), Bool.false_and]
      exact hzero.symm
  | large t => exact Moebius.testBit_transformPacked t.outputs_lt m

end Keystream.TruthTable
