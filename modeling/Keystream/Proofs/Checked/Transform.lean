import Mathlib.Data.Nat.Bitwise
import Keystream.Proofs.Checked.Vectors
import Keystream.Proofs.Transform

/-!
# The transform without faults

The transform works on an array whose accesses are tested. Every entry has its partner inside the
array, since both have as many bits as there are variables.
-/

namespace Keystream

namespace Checked

def readAt (bits : Array Bool) (j : Nat) : Checked Bool :=
  if h : j < bits.size then .ok bits[j] else fault .outOfBounds

def writeAt (bits : Array Bool) (j : Nat) (b : Bool) : Checked (Array Bool) :=
  if h : j < bits.size then .ok (bits.set j b h) else fault .outOfBounds

section Vector

variable {n : Nat} (bits : Vector Bool n) {j : Nat}

theorem readAt_toArray (h : j < n) : readAt bits.toArray j = .ok bits[j] :=
  dif_pos (bits.size_toArray.symm ▸ h)

theorem writeAt_toArray (h : j < n) (b : Bool) :
    writeAt bits.toArray j b = .ok (bits.set j b).toArray :=
  dif_pos (bits.size_toArray.symm ▸ h)

end Vector

end Checked

namespace Moebius

open Checked

/-- Adds to entry `j`, if it has the bit of `step`, the entry without that bit. -/
def checkedAddWithout (step j : Nat) (bits : Array Bool) : Checked (Array Bool) :=
  if j &&& step ≠ 0 then do
    let b ← readAt bits j
    let partner ← readAt bits (j ^^^ step)
    writeAt bits j (b ^^ partner)
  else .ok bits

/-- A pass over the first `J` entries. -/
def checkedEntries (step : Nat) (bits : Array Bool) : Nat → Checked (Array Bool)
  | 0 => .ok bits
  | J + 1 => do checkedAddWithout step J (← checkedEntries step bits J)

/-- The passes of the first `k` variables over `entries` entries. -/
def checkedPasses (entries : Nat) (bits : Array Bool) : Nat → Checked (Array Bool)
  | 0 => .ok bits
  | k + 1 => do
    let bits ← checkedPasses entries bits k
    checkedEntries (← size k) bits entries

/-- The transform of the packed outputs of `n` variables. -/
def checkedTransform (n packed : Nat) : Checked Nat := do
  let entries ← size n
  let bits ← checkedPasses entries (Array.ofFn fun j : Fin entries => packed.testBit j) n
  return Bits.collect bits.toList

variable {n : Nat}

theorem checkedAddWithout_eq {i j : Nat} (hi : i < n) (hj : j < 2 ^ n)
    (bits : Vector Bool (2 ^ n)) :
    checkedAddWithout (2 ^ i) j bits.toArray = .ok (addWithout i hi bits j hj).toArray := by
  have hbit : j &&& 2 ^ i ≠ 0 ↔ j.testBit i = true := by
    rw [Nat.and_two_pow]
    cases j.testBit i <;> simp
  unfold checkedAddWithout addWithout
  by_cases h : j.testBit i = true
  · simp only [if_pos (hbit.2 h), if_pos h, readAt_toArray bits hj,
      readAt_toArray bits (flip_lt hi hj), ok_bind, writeAt_toArray bits hj]
  · rw [if_neg (hbit.not.2 h), if_neg h]

theorem checkedEntries_eq {i : Nat} (hi : i < n) (bits : Vector Bool (2 ^ n)) {J : Nat}
    (hJ : J ≤ 2 ^ n) :
    checkedEntries (2 ^ i) bits.toArray J =
      .ok (Nat.fold J (fun j hj bits => addWithout i hi bits j (Nat.lt_of_lt_of_le hj hJ))
        bits).toArray := by
  induction J with
  | zero => rfl
  | succ J ih =>
    rw [checkedEntries, ih (Nat.le_of_succ_le hJ), ok_bind, Nat.fold_succ]
    exact checkedAddWithout_eq hi hJ _

theorem checkedPasses_eq (hn : n < 64) (bits : Vector Bool (2 ^ n)) {k : Nat} (hk : k ≤ n) :
    checkedPasses (2 ^ n) bits.toArray k = .ok (passes bits k hk).toArray := by
  induction k with
  | zero => rfl
  | succ k ih =>
    rw [checkedPasses, ih (Nat.le_of_succ_le hk), ok_bind,
      size_of_lt (Nat.lt_trans (Nat.lt_of_succ_le hk) hn), ok_bind]
    exact checkedEntries_eq hk _ (Nat.le_refl _)

theorem checkedTransform_eq (hn : n < 64) (packed : Nat) :
    checkedTransform n packed = .ok (transformPacked n packed) := by
  have hpasses := checkedPasses_eq hn (Vector.ofFn fun j : Fin (2 ^ n) => packed.testBit j)
    (Nat.le_refl n)
  rw [Vector.toArray_ofFn] at hpasses
  simp only [checkedTransform, size_of_lt hn, ok_bind, hpasses, pure_eq, Bits.collect_eq]
  rfl

end Moebius

end Keystream
