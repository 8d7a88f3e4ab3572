import Keystream.Word

/-!
# The subset-sum transform of a packed table

The transform replaces the output at every input `j` by the sum modulo two of the outputs at the
inputs included in `j`. It runs in one pass per variable: pass `i` adds to each entry that has
variable `i` the entry without it. Tables of up to six variables are transformed inside a word,
larger ones in a vector of bits that is updated in place.
-/

namespace Keystream.Moebius

section Vector

variable {n : Nat}

theorem flip_lt {i j : Nat} (hi : i < n) (hj : j < 2 ^ n) : j ^^^ 2 ^ i < 2 ^ n :=
  Nat.xor_lt_two_pow hj (Nat.pow_lt_pow_right (by decide) hi)

/-- Adds to entry `j`, if variable `i` is in it, the entry without that variable. -/
def addWithout (i : Nat) (hi : i < n) (bits : Vector Bool (2 ^ n)) (j : Nat) (hj : j < 2 ^ n) :
    Vector Bool (2 ^ n) :=
  if j.testBit i then
    have hk := flip_lt hi hj
    bits.set j (bits[j] ^^ bits[j ^^^ 2 ^ i])
  else bits

/-- Pass `i`, entry by entry from the lowest. -/
def pass (i : Nat) (hi : i < n) (bits : Vector Bool (2 ^ n)) : Vector Bool (2 ^ n) :=
  Nat.fold (2 ^ n) (fun j hj bits => addWithout i hi bits j hj) bits

/-- The passes of the first `k` variables. -/
def passes (bits : Vector Bool (2 ^ n)) : (k : Nat) → k ≤ n → Vector Bool (2 ^ n)
  | 0, _ => bits
  | k + 1, hk => pass k hk (passes bits k (Nat.le_of_succ_le hk))

def transform (bits : Vector Bool (2 ^ n)) : Vector Bool (2 ^ n) :=
  passes bits n (Nat.le_refl n)

/-- The transform of the packed outputs of `n` variables. -/
def transformPacked (n packed : Nat) : Nat :=
  Bits.toNat (transform (Vector.ofFn fun j : Fin (2 ^ n) => packed.testBit j)).toList

theorem transformPacked_lt (n packed : Nat) : transformPacked n packed < 2 ^ (2 ^ n : Nat) := by
  have h := Bits.toNat_lt
    (transform (Vector.ofFn fun j : Fin (2 ^ n) => packed.testBit j)).toList
  rwa [Vector.length_toList] at h

end Vector

/-- The positions below 64 without variable `i`, for `i` below 6. -/
def without : Nat → UInt64
  | 0 => 0x5555555555555555
  | 1 => 0x3333333333333333
  | 2 => 0x0f0f0f0f0f0f0f0f
  | 3 => 0x00ff00ff00ff00ff
  | 4 => 0x0000ffff0000ffff
  | _ => 0x00000000ffffffff

/-- Pass `i` on all 64 entries at once. -/
def passWord (i : Nat) (w : UInt64) : UInt64 :=
  w ^^^ ((w &&& without i) <<< UInt64.ofNat (2 ^ i))

/-- The passes of the first `k` variables. -/
def passesWord (w : UInt64) : Nat → UInt64
  | 0 => w
  | k + 1 => passWord k (passesWord w k)

/-- The transform of the packed outputs of up to six variables; positions from `2 ^ n` on are not cut
off. -/
def transformWord (n : Nat) (w : UInt64) : UInt64 :=
  passesWord w n

end Keystream.Moebius
