import Keystream.ShiftRegister

/-!
# Setters of registers

The fill and the taps are written in the same three ways: from a vector, from a word, or one bit at
a time. Setters also work in place. There a fault ends a setter and undoes nothing, so one that
fails is without effect only if it writes after all its checks.
-/

namespace Keystream.ShiftRegister

/-- The vectors that a register consists of. -/
inductive Part where
  | fill
  | taps
  deriving DecidableEq

def Part.other : Part → Part
  | fill => taps
  | taps => fill

def part (r : ShiftRegister) : Part → BitVector
  | .fill => r.fill
  | .taps => r.taps

@[simp] theorem length_part (r : ShiftRegister) (p : Part) : (r.part p).length = r.length := by
  cases p with
  | fill => rfl
  | taps => exact r.length_taps

theorem length_taps_eq (r : ShiftRegister) {x : BitVector} (h : x.length = r.length) :
    r.taps.length = x.length :=
  r.length_taps.trans h.symm

theorem length_pos_of_eq (r : ShiftRegister) {x : BitVector} (h : x.length = r.length) :
    0 < x.length :=
  Nat.lt_of_lt_of_eq r.length_pos h.symm

/-- The register with another vector of its length as one part. -/
def replace (r : ShiftRegister) (p : Part) (x : BitVector) (h : x.length = r.length) :
    ShiftRegister :=
  match p with
  | .fill => ⟨x, r.taps, r.length_taps_eq h, r.length_pos_of_eq h⟩
  | .taps => ⟨r.fill, x, h, r.length_pos⟩

section Replace

variable (r : ShiftRegister) (p : Part) {x : BitVector} (h : x.length = r.length)

@[simp] theorem part_replace : (r.replace p x h).part p = x := by
  cases p <;> rfl

@[simp] theorem part_other_replace : (r.replace p x h).part p.other = r.part p.other := by
  cases p <;> rfl

@[simp] theorem length_replace : (r.replace p x h).length = r.length := by
  cases p with
  | fill => exact h
  | taps => rfl

end Replace

/-- Steps that change a register in place until a fault ends them. -/
abbrev Update := EStateM Error ShiftRegister

namespace Update

def write (p : Part) (x : BitVector) : Update Unit := do
  let r ← get
  if h : x.length = r.length then
    set (r.replace p x h)
  else
    throw (.lengthMismatch r.length x.length)

/-- Writes the low bits of a word, if the register is no longer than a word. -/
def writeWord (p : Part) (w : UInt64) : Update Unit := do
  let r ← get
  if 64 < r.length then
    throw (.tooWideForWord r.length)
  write p (.ofWord r.length w)

/-- Writes bit `i`, given as a number. -/
def writeBit (p : Part) (i value : Nat) : Update Unit := do
  let r ← get
  match h : (r.part p).set i value with
  | .ok x => set (r.replace p x ((BitVector.length_set h).trans (r.length_part p)))
  | .error e => throw e

end Update

/-- What a setter is given to write. -/
inductive Setting where
  | vector (x : BitVector)
  | word (w : UInt64)
  | bit (i value : Nat)

namespace Setting

/-- The register that the setter of a part makes of another. -/
def apply : Setting → Part → ShiftRegister → Except Error ShiftRegister
  | vector x, .fill, r => r.setFill x
  | vector x, .taps, r => r.setTaps x
  | word w, .fill, r => r.setFillWord w
  | word w, .taps, r => r.setTapsWord w
  | bit i value, .fill, r => r.setFillAt i value
  | bit i value, .taps, r => r.setTapAt i value

/-- The setter of a part in place. -/
def assign : Setting → Part → Update Unit
  | vector x, p => Update.write p x
  | word w, p => Update.writeWord p w
  | bit i value, p => Update.writeBit p i value

end Setting

end Keystream.ShiftRegister
