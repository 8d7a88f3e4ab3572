import Mathlib.Data.List.Nodup
import Keystream.Proofs.Transform

/-!
# The transform of vectors in closed form

Each pass lets one more variable differ: after some passes an entry holds the sum of the entries
that have the same other variables and no more of the first ones. After all passes that is the sum
over the included indices. The passes are linear and undo themselves, and so does the transform of
packed outputs.
-/

namespace Keystream.Moebius

/-- Index `k` has the variables of `j` from `i` on, and below `i` no other ones. -/
def Joins (i j k : Nat) : Prop :=
  (∀ v, i ≤ v → k.testBit v = j.testBit v) ∧
    ∀ v, v < i → k.testBit v = true → j.testBit v = true

theorem joins_iff {i j k : Nat} :
    Joins i j k ↔ k / 2 ^ i = j / 2 ^ i ∧ included (k % 2 ^ i) (j % 2 ^ i) = true := by
  rw [included_iff]
  simp only [Nat.testBit_mod_two_pow, Bool.and_eq_true, decide_eq_true_eq]
  constructor
  · rintro ⟨hhigh, hlow⟩
    constructor
    · apply Nat.eq_of_testBit_eq
      intro v
      rw [Nat.testBit_div_two_pow, Nat.testBit_div_two_pow]
      exact hhigh _ (Nat.le_add_left i v)
    · rintro v ⟨hv, hk⟩
      exact ⟨hv, hlow v hv hk⟩
  · rintro ⟨hhigh, hlow⟩
    constructor
    · intro v hv
      have hbit : (k / 2 ^ i).testBit (v - i) = (j / 2 ^ i).testBit (v - i) := by rw [hhigh]
      rwa [Nat.testBit_div_two_pow, Nat.testBit_div_two_pow, Nat.sub_add_cancel hv] at hbit
    · intro v hv hk
      exact (hlow v ⟨hv, hk⟩).2

instance (i j k : Nat) : Decidable (Joins i j k) :=
  decidable_of_iff _ joins_iff.symm

theorem Joins.lt_two_pow {n i j k : Nat} (h : Joins i j k) (hi : i ≤ n) (hj : j < 2 ^ n) :
    k < 2 ^ n := by
  apply Nat.lt_pow_two_of_testBit
  intro v hv
  rw [h.1 v (Nat.le_trans hi hv)]
  exact Bits.testBit_of_le hj hv

/-- The indices that join `j` lie in its block of `2 ^ i`, at the places included in its own. -/
theorem filter_joins_perm {n i j : Nat} (hi : i ≤ n) (hj : j < 2 ^ n) :
    ((List.range (2 ^ n)).filter (Joins i j ·)).Perm
      (((List.range (2 ^ i)).filter (included · (j % 2 ^ i))).map (2 ^ i * (j / 2 ^ i) + ·)) := by
  have hinjective : Function.Injective (2 ^ i * (j / 2 ^ i) + ·) := fun _ _ => Nat.add_left_cancel
  -- Neither list repeats an index, so they only have to agree on their members.
  apply (List.perm_ext_iff_of_nodup (List.nodup_range.filter _)
    ((List.nodup_range.filter _).map hinjective)).2
  intro k
  simp only [List.mem_filter, List.mem_map, List.mem_range, decide_eq_true_eq]
  constructor
  · rintro ⟨-, hjoins⟩
    obtain ⟨hhigh, hlow⟩ := joins_iff.1 hjoins
    refine ⟨k % 2 ^ i, ⟨Nat.mod_lt _ (Nat.two_pow_pos i), hlow⟩, ?_⟩
    rw [← hhigh, Nat.div_add_mod]
  · rintro ⟨m, ⟨hm, hlow⟩, rfl⟩
    have hjoins : Joins i j (2 ^ i * (j / 2 ^ i) + m) := by
      rw [joins_iff, Nat.mul_add_div (Nat.two_pow_pos i), Nat.div_eq_of_lt hm, Nat.add_zero,
        Nat.mul_add_mod, Nat.mod_eq_of_lt hm]
      exact ⟨rfl, hlow⟩
    exact ⟨hjoins.lt_two_pow hi hj, hjoins⟩

theorem subsetSums_eq_paritySum_joins {n i j : Nat} (hi : i ≤ n) (hj : j < 2 ^ n)
    (g : Nat → Bool) :
    subsetSums i g j = paritySum ((List.range (2 ^ n)).filter (Joins i j ·)) g := by
  have hblock := subsetSums_eq_paritySum i g (j / 2 ^ i) (Nat.mod_lt j (Nat.two_pow_pos i))
  rw [Nat.div_add_mod] at hblock
  rw [hblock, paritySum_perm (filter_joins_perm hi hj), paritySum_map, paritySum_filter]

theorem passAt_xor (i : Nat) (g h : Nat → Bool) :
    passAt i (fun j => g j ^^ h j) = fun j => passAt i g j ^^ passAt i h j := by
  funext j
  simp only [passAt]
  cases j.testBit i
  · simp only [Bool.false_and, Bool.xor_false]
  · simp only [Bool.true_and, Bool.xor_assoc, Bool.xor_left_comm (h j)]

theorem subsetSums_xor (k : Nat) (g h : Nat → Bool) :
    subsetSums k (fun j => g j ^^ h j) = fun j => subsetSums k g j ^^ subsetSums k h j := by
  induction k with
  | zero => rfl
  | succ k ih => rw [subsetSums, ih, passAt_xor, subsetSums, subsetSums]

section Packed

variable {n p : Nat}

theorem get_passes (hp : p < 2 ^ (2 ^ n : Nat)) {i : Nat} (hi : i ≤ n) (j : Fin (2 ^ n)) :
    (passes (Vector.ofFn fun k : Fin (2 ^ n) => p.testBit k) i hi).get j =
      paritySum ((List.range (2 ^ n)).filter (Joins i j ·)) p.testBit := by
  have hentry := entry_passes (Vector.ofFn fun k : Fin (2 ^ n) => p.testBit k) i hi
  rw [entry_ofFn hp] at hentry
  rw [← subsetSums_eq_paritySum_joins hi j.isLt, ← hentry]
  exact (entry_of_lt _ j.isLt).symm

theorem testBit_transformPacked_of_lt (hp : p < 2 ^ (2 ^ n : Nat)) {j : Nat} (hj : j < 2 ^ n) :
    (transformPacked n p).testBit j =
      paritySum ((List.range (2 ^ n)).filter fun k => k &&& j == k) p.testBit := by
  rw [testBit_transformPacked hp, subsetSums_eq_paritySum_range _ hj, paritySum_filter]
  rfl

theorem transformPacked_transformPacked (hp : p < 2 ^ (2 ^ n : Nat)) :
    transformPacked n (transformPacked n p) = p := by
  have hsums : (transformPacked n p).testBit = subsetSums n p.testBit :=
    funext (testBit_transformPacked hp)
  apply Nat.eq_of_testBit_eq
  intro j
  rw [testBit_transformPacked (transformPacked_lt n p), hsums, subsetSums_subsetSums]

theorem transformPacked_xor (hp : p < 2 ^ (2 ^ n : Nat)) {q : Nat} (hq : q < 2 ^ (2 ^ n : Nat)) :
    transformPacked n (p ^^^ q) = transformPacked n p ^^^ transformPacked n q := by
  have hsum : (p ^^^ q).testBit = fun j => p.testBit j ^^ q.testBit j :=
    funext fun j => Nat.testBit_xor p q j
  apply Nat.eq_of_testBit_eq
  intro j
  rw [testBit_transformPacked (Nat.xor_lt_two_pow hp hq), hsum, subsetSums_xor, Nat.testBit_xor,
    testBit_transformPacked hp, testBit_transformPacked hq]

end Packed

/-- After the first passes over the packed outputs of any number of variables, an entry is the sum
of the outputs that join it; after all passes it is the sum of the outputs included in it. The
transform keeps the number of outputs, undoes itself and maps sums to sums. -/
theorem transform_sums_included {n p : Nat} (hp : p < 2 ^ (2 ^ n : Nat)) :
    (∀ i (hi : i ≤ n) (j : Fin (2 ^ n)),
      (passes (Vector.ofFn fun k : Fin (2 ^ n) => p.testBit k) i hi).get j =
        paritySum ((List.range (2 ^ n)).filter (Joins i j ·)) p.testBit) ∧
    (∀ j, j < 2 ^ n → (transformPacked n p).testBit j =
      paritySum ((List.range (2 ^ n)).filter fun k => k &&& j == k) p.testBit) ∧
    transformPacked n p < 2 ^ (2 ^ n : Nat) ∧
    transformPacked n (transformPacked n p) = p ∧
    ∀ q, q < 2 ^ (2 ^ n : Nat) →
      transformPacked n (p ^^^ q) = transformPacked n p ^^^ transformPacked n q := by
  refine ⟨?_, ?_, transformPacked_lt n p, transformPacked_transformPacked hp, ?_⟩
  · intro i hi j
    exact get_passes hp hi j
  · intro j hj
    exact testBit_transformPacked_of_lt hp hj
  · intro q hq
    exact transformPacked_xor hp hq

/-- The function with ones at the inputs 0, 1, 2 and 5 of three variables: an entry after the first
pass, a coefficient, the transform and back, and the sum with another function. -/
theorem transform_sums_included_example :
    0x27 < 2 ^ (2 ^ (3 : Nat) : Nat) ∧ 0x81 < 2 ^ (2 ^ (3 : Nat) : Nat) ∧
    (passes (Vector.ofFn fun k : Fin (2 ^ (3 : Nat)) => Nat.testBit 0x27 k) 1 (by decide)).get
        ⟨5, by decide⟩ = paritySum [4, 5] (Nat.testBit 0x27) ∧
    (transformPacked 3 0x27).testBit 5 = paritySum [0, 1, 4, 5] (Nat.testBit 0x27) ∧
    transformPacked 3 0x27 = 0x39 ∧ transformPacked 3 0x39 = 0x27 ∧
    transformPacked 3 (0x27 ^^^ 0x81) = 0x39 ^^^ transformPacked 3 0x81 := by
  have hp : 0x27 < 2 ^ (2 ^ (3 : Nat) : Nat) := by decide
  have hq : 0x81 < 2 ^ (2 ^ (3 : Nat) : Nat) := by decide
  obtain ⟨hpasses, hbits, -, htwice, hsum⟩ := transform_sums_included hp
  have hvalue : transformPacked 3 0x27 = 0x39 := by decide
  have hjoins : (List.range (2 ^ (3 : Nat))).filter (Joins 1 5 ·) = [4, 5] := by decide
  have hincluded : ((List.range (2 ^ (3 : Nat))).filter fun k => k &&& 5 == k) = [0, 1, 4, 5] := by
    decide
  have hentry := hpasses 1 (by decide) ⟨5, by decide⟩
  have hbit := hbits 5 (by decide)
  have hadded := hsum 0x81 hq
  rw [hjoins] at hentry
  rw [hincluded] at hbit
  rw [hvalue] at htwice hadded
  exact ⟨hp, hq, hentry, hbit, hvalue, htwice, hadded⟩

end Keystream.Moebius
