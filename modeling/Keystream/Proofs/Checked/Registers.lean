import Keystream.Proofs.Checked.Vectors
import Keystream.Proofs.Settings

/-!
# Registers without faults

Both vectors of a register have its length, which is positive. So they are kept alike when a step
takes their inner product, and a bit is there to be dropped.
-/

namespace Keystream.ShiftRegister

open Checked

/-- The register with these vectors, which must have one positive length. -/
def assemble (fill taps : BitVector) : Checked ShiftRegister :=
  if h : taps.length = fill.length ∧ 0 < fill.length then .ok ⟨fill, taps, h.1, h.2⟩
  else fault .malformed

theorem assemble_eq (r : ShiftRegister) : assemble r.fill r.taps = .ok r :=
  dif_pos ⟨r.length_taps, r.length_pos⟩

/-- A register of zeros without taps. -/
def checkedBlank (length : Nat) : Checked ShiftRegister :=
  if length = 0 then fail .emptyRegister
  else do
    assemble (← BitVector.checkedZeros length) (← BitVector.checkedZeros length)

theorem checkedBlank_eq (length : Nat) : checkedBlank length = faultless (blank length) := by
  unfold checkedBlank blank
  rcases Nat.eq_zero_or_pos length with h | h
  · rw [if_pos h, dif_neg (Nat.not_lt.2 (Nat.le_of_eq h)), faultless_error]
  · simp only [if_neg (Nat.ne_of_gt h), dif_pos h, BitVector.checkedZeros_eq, ok_bind]
    exact assemble_eq ⟨.zeros length, .zeros length, rfl, h⟩

/-- The register with another vector as one part. -/
def checkedReplace (r : ShiftRegister) (p : Part) (x : BitVector) : Checked ShiftRegister :=
  match p with
  | .fill => assemble x r.taps
  | .taps => assemble r.fill x

theorem checkedReplace_eq (r : ShiftRegister) (p : Part) {x : BitVector} (h : x.length = r.length) :
    r.checkedReplace p x = .ok (r.replace p x h) := by
  cases p with
  | fill => exact assemble_eq (r.replace .fill x h)
  | taps => exact assemble_eq (r.replace .taps x h)

def checkedWrite (r : ShiftRegister) (p : Part) (x : BitVector) : Checked ShiftRegister :=
  if x.length ≠ r.length then fail (.lengthMismatch r.length x.length) else r.checkedReplace p x

/-- The register that the setter of a part makes of another. -/
def Setting.checkedApply : Setting → Part → ShiftRegister → Checked ShiftRegister
  | vector x, p, r => r.checkedWrite p x
  | word w, p, r =>
    if 64 < r.length then fail (.tooWideForWord r.length)
    else do
      r.checkedWrite p (← BitVector.checkedOfWord r.length w)
  | bit i value, p, r => do
    r.checkedReplace p (← (r.part p).checkedSet i value)

theorem checkedWrite_eq (r : ShiftRegister) (p : Part) (x : BitVector) :
    r.checkedWrite p x = faultless ((Setting.vector x).apply p r) := by
  rw [checkedWrite, apply_vector]
  by_cases h : x.length = r.length
  · rw [if_neg (not_not.2 h), dif_pos h, checkedReplace_eq r p h, faultless_ok]
  · rw [if_pos h, dif_neg h, faultless_error]

theorem Setting.checkedApply_eq (s : Setting) (p : Part) (r : ShiftRegister) :
    s.checkedApply p r = faultless (s.apply p r) := by
  cases s with
  | vector x => exact r.checkedWrite_eq p x
  | word w =>
    rw [checkedApply, apply_word]
    rcases Nat.lt_or_ge 64 r.length with h | h
    · rw [if_pos h, if_neg (Nat.not_le.2 h), faultless_error]
    · rw [if_neg (Nat.not_lt.2 h), if_pos h, BitVector.checkedOfWord_eq, ok_bind, checkedWrite_eq]
  | bit i value =>
    rw [checkedApply, apply_bit, faultless_bind, BitVector.checkedSet_eq]
    cases hset : (r.part p).set i value with
    | error e => rfl
    | ok x =>
      have hx : x.length = r.length := (BitVector.length_set hset).trans (r.length_part p)
      rw [faultless_ok, ok_bind, ok_bind, checkedReplace_eq r p hx, apply_vector, dif_pos hx,
        faultless_ok]

/-- The register with these taps and this fill, whose length is that of the taps. -/
def checkedOfVectors (taps fill : BitVector) : Checked ShiftRegister := do
  let r ← checkedBlank taps.length
  let r ← r.checkedWrite .taps taps
  r.checkedWrite .fill fill

theorem checkedOfVectors_eq (taps fill : BitVector) :
    checkedOfVectors taps fill = faultless (ofVectors taps fill) := by
  simp only [checkedOfVectors, ofVectors, checkedBlank_eq, checkedWrite_eq, faultless_bind]
  rfl

/-- One shift: its output, and the register after it. -/
def checkedShift (r : ShiftRegister) : Checked (Bool × ShiftRegister) := do
  let b ← r.fill.checkedDot r.taps
  let r ← assemble (← r.fill.checkedSlide b) r.taps
  return (b, r)

theorem checkedShift_eq (r : ShiftRegister) : r.checkedShift = .ok r.shift := by
  have hnext : assemble (r.fill.slide (r.fill.dot r.taps) r.length_pos) r.taps = .ok r.advance :=
    assemble_eq r.advance
  simp only [checkedShift, BitVector.checkedDot_eq r.length_taps.symm, ok_bind,
    BitVector.checkedSlide_eq r.length_pos, hnext, pure_eq]
  rfl

/-- Shifts `n` times: the outputs, and the register after them. -/
def checkedRun (r : ShiftRegister) : Nat → Checked (List Bool × ShiftRegister)
  | 0 => .ok ([], r)
  | n + 1 => do
    let (b, r) ← r.checkedShift
    let (bits, r) ← r.checkedRun n
    return (b :: bits, r)

theorem checkedRun_eq (r : ShiftRegister) (n : Nat) : r.checkedRun n = .ok (r.run n) := by
  induction n generalizing r with
  | zero => rfl
  | succ n ih => simp only [checkedRun, checkedShift_eq, shift, ok_bind, ih, pure_eq, run_succ]

/-- Shifts `n` times: the last output, which is `b` if there is none, and the register after it. -/
def checkedShiftOver (b : Bool) (r : ShiftRegister) : Nat → Checked (Bool × ShiftRegister)
  | 0 => .ok (b, r)
  | n + 1 => do
    let (b, r) ← r.checkedShift
    checkedShiftOver b r n

theorem checkedShiftOver_eq (b : Bool) (r : ShiftRegister) (n : Nat) :
    checkedShiftOver b r n = .ok (shiftOver b r n) := by
  induction n generalizing b r with
  | zero => rfl
  | succ n ih => simp only [checkedShiftOver, checkedShift_eq, shift, ok_bind, ih, shiftOver]

/-- The bits of the answer, and the register after the call. A call that looks ahead shifts a copy. -/
def Call.checkedPerform : Call → ShiftRegister → Checked (List Bool × ShiftRegister)
  | output, r => do
    return ([← r.fill.checkedDot r.taps], r)
  | outputs n, r => do
    return ((← r.checkedRun n).1, r)
  | outputAt k, r => do
    return ([(← checkedShiftOver false r (k + 1)).1], r)
  | shift, r | next, r => do
    let (b, r) ← r.checkedShift
    return ([b], r)
  | run n, r | take n, r => r.checkedRun n
  | shiftPast k, r => do
    let (b, r) ← checkedShiftOver false r (k + 1)
    return ([b], r)

theorem Call.checkedPerform_eq (c : Call) (r : ShiftRegister) :
    c.checkedPerform r = .ok (c.perform r) := by
  cases c with
  | output =>
    simp only [checkedPerform, BitVector.checkedDot_eq r.length_taps.symm, ok_bind, pure_eq]
    rfl
  | outputs n => simp only [checkedPerform, checkedRun_eq, ok_bind, pure_eq, perform, run_eq]
  | outputAt k =>
    simp only [checkedPerform, checkedShiftOver_eq, ok_bind, pure_eq, perform, outputAt_eq,
      shiftOver_succ]
    rfl
  | shift =>
    simp only [checkedPerform, checkedShift_eq, ok_bind, pure_eq]
    rfl
  | next =>
    simp only [checkedPerform, checkedShift_eq, ok_bind, pure_eq]
    rfl
  | run n => exact r.checkedRun_eq n
  | take n => exact (r.checkedRun_eq n).trans (congrArg Except.ok (r.take_eq_run n).symm)
  | shiftPast k =>
    simp only [checkedPerform, checkedShiftOver_eq, ok_bind, pure_eq]
    rfl

end Keystream.ShiftRegister
