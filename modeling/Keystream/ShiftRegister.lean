import Keystream.BitVector.Basic

/-!
# Linear feedback shift registers

A register holds a fill and its taps, two vectors of one positive length. Its output is the sum
modulo two of the tapped bits of the fill. A shift drops bit 0 of the fill, moves every other bit
one place down and writes the output at the top.
-/

namespace Keystream

structure ShiftRegister where
  fill : BitVector
  taps : BitVector
  length_taps : taps.length = fill.length
  length_pos : 0 < fill.length
  deriving DecidableEq

namespace ShiftRegister

def length (r : ShiftRegister) : Nat :=
  r.fill.length

/-- A register of zeros without taps. -/
def blank (length : Nat) : Except Error ShiftRegister :=
  if h : 0 < length then .ok ⟨.zeros length, .zeros length, rfl, h⟩ else .error .emptyRegister

def setFill (r : ShiftRegister) (fill : BitVector) : Except Error ShiftRegister :=
  if h : fill.length = r.length then
    .ok ⟨fill, r.taps, r.length_taps.trans h.symm, h ▸ r.length_pos⟩
  else .error (.lengthMismatch r.length fill.length)

def setTaps (r : ShiftRegister) (taps : BitVector) : Except Error ShiftRegister :=
  if h : taps.length = r.length then .ok ⟨r.fill, taps, h, r.length_pos⟩
  else .error (.lengthMismatch r.length taps.length)

/-- The register with these taps and this fill, whose length is that of the taps. -/
def ofVectors (taps fill : BitVector) : Except Error ShiftRegister := do
  let r ← blank taps.length
  let r ← r.setTaps taps
  r.setFill fill

/-- Sets the fill from the low bits of a word, if the register is no longer than a word. -/
def setFillWord (r : ShiftRegister) (w : UInt64) : Except Error ShiftRegister :=
  if r.length ≤ 64 then r.setFill (.ofWord r.length w) else .error (.tooWideForWord r.length)

def setTapsWord (r : ShiftRegister) (w : UInt64) : Except Error ShiftRegister :=
  if r.length ≤ 64 then r.setTaps (.ofWord r.length w) else .error (.tooWideForWord r.length)

def setFillAt (r : ShiftRegister) (i value : Nat) : Except Error ShiftRegister := do
  r.setFill (← r.fill.set i value)

def setTapAt (r : ShiftRegister) (i value : Nat) : Except Error ShiftRegister := do
  r.setTaps (← r.taps.set i value)

def fillAt (r : ShiftRegister) (i : Nat) : Except Error Bool :=
  r.fill.get i

def tapAt (r : ShiftRegister) (i : Nat) : Except Error Bool :=
  r.taps.get i

/-- The bit that the next shift puts out. -/
def output (r : ShiftRegister) : Bool :=
  r.fill.dot r.taps

def advance (r : ShiftRegister) : ShiftRegister where
  fill := r.fill.slide r.output r.length_pos
  taps := r.taps
  length_taps := r.length_taps
  length_pos := r.length_pos

@[simp] theorem length_advance (r : ShiftRegister) : r.advance.length = r.length := rfl

@[simp] theorem taps_advance (r : ShiftRegister) : r.advance.taps = r.taps := rfl

/-- One shift: its output, and the register after it. -/
def shift (r : ShiftRegister) : Bool × ShiftRegister :=
  (r.output, r.advance)

def advanceBy (r : ShiftRegister) : Nat → ShiftRegister
  | 0 => r
  | n + 1 => r.advance.advanceBy n

@[simp] theorem advanceBy_zero (r : ShiftRegister) : r.advanceBy 0 = r := rfl

theorem advanceBy_succ (r : ShiftRegister) (n : Nat) :
    r.advanceBy (n + 1) = r.advance.advanceBy n := rfl

theorem advanceBy_add (r : ShiftRegister) (m n : Nat) :
    r.advanceBy (m + n) = (r.advanceBy m).advanceBy n := by
  induction m generalizing r with
  | zero => rw [Nat.zero_add]; rfl
  | succ m ih => rw [Nat.succ_add]; exact ih r.advance

/-- The last of the next `n` outputs, and `b` if there is none. -/
def lastOutput (b : Bool) (r : ShiftRegister) : Nat → Bool
  | 0 => b
  | n + 1 => lastOutput r.output r.advance n

/-- Output number `k`, counted from the next one as number 0. -/
def outputAt (r : ShiftRegister) (k : Nat) : Bool :=
  lastOutput false r (k + 1)

theorem lastOutput_succ (b : Bool) (r : ShiftRegister) (k : Nat) :
    lastOutput b r (k + 1) = (r.advanceBy k).output := by
  induction k generalizing b r with
  | zero => rfl
  | succ k ih => exact ih r.output r.advance

theorem outputAt_eq (r : ShiftRegister) (k : Nat) : r.outputAt k = (r.advanceBy k).output :=
  lastOutput_succ false r k

/-- Shifts `n` times: the last output, which is `b` if there is none, and the register after it. -/
def shiftOver (b : Bool) (r : ShiftRegister) : Nat → Bool × ShiftRegister
  | 0 => (b, r)
  | n + 1 =>
    let (b, r) := r.shift
    shiftOver b r n

/-- Shifts `k + 1` times: the last output, and the register after it. -/
def shiftPast (r : ShiftRegister) (k : Nat) : Bool × ShiftRegister :=
  shiftOver false r (k + 1)

theorem shiftOver_succ (b : Bool) (r : ShiftRegister) (k : Nat) :
    shiftOver b r (k + 1) = (r.advanceBy k).shift := by
  induction k generalizing b r with
  | zero => rfl
  | succ k ih => exact ih r.output r.advance

theorem shiftPast_eq (r : ShiftRegister) (k : Nat) : r.shiftPast k = (r.advanceBy k).shift :=
  shiftOver_succ false r k

/-- The next `n` outputs behind those already there, of which the last one stands first. -/
def outputsOnto (done : List Bool) (r : ShiftRegister) : Nat → List Bool
  | 0 => done.reverse
  | n + 1 => outputsOnto (r.output :: done) r.advance n

def outputs (r : ShiftRegister) (n : Nat) : List Bool :=
  outputsOnto [] r n

theorem outputsOnto_eq (done : List Bool) (r : ShiftRegister) (n : Nat) :
    outputsOnto done r n = done.reverse ++ r.outputs n := by
  unfold outputs
  induction n generalizing done r with
  | zero => exact (List.append_nil _).symm
  | succ n ih =>
    rw [outputsOnto, ih, outputsOnto, ih [r.output]]
    simp only [List.reverse_cons, List.reverse_nil, List.nil_append, List.append_assoc]

@[simp] theorem outputs_zero (r : ShiftRegister) : r.outputs 0 = [] := rfl

theorem outputs_succ (r : ShiftRegister) (n : Nat) :
    r.outputs (n + 1) = r.output :: r.advance.outputs n :=
  outputsOnto_eq [r.output] r.advance n

/-- Shifts `n` times, with the outputs behind those already there. -/
def runOnto (done : List Bool) (r : ShiftRegister) : Nat → List Bool × ShiftRegister
  | 0 => (done.reverse, r)
  | n + 1 =>
    let (b, r) := r.shift
    runOnto (b :: done) r n

/-- Shifts `n` times: the outputs, and the register after them. -/
def run (r : ShiftRegister) (n : Nat) : List Bool × ShiftRegister :=
  runOnto [] r n

theorem runOnto_eq (done : List Bool) (r : ShiftRegister) (n : Nat) :
    runOnto done r n = (done.reverse ++ (r.run n).1, (r.run n).2) := by
  unfold run
  induction n generalizing done r with
  | zero => simp only [runOnto, List.reverse_nil, List.append_nil]
  | succ n ih =>
    simp only [runOnto, shift]
    rw [ih, ih [r.output]]
    simp only [List.reverse_cons, List.reverse_nil, List.nil_append, List.append_assoc]

@[simp] theorem run_zero (r : ShiftRegister) : r.run 0 = ([], r) := rfl

theorem run_succ (r : ShiftRegister) (n : Nat) :
    r.run (n + 1) = (r.output :: (r.advance.run n).1, (r.advance.run n).2) :=
  runOnto_eq [r.output] r.advance n

/-- The register as a stream of outputs, which never ends. -/
def next? (r : ShiftRegister) : Option (Bool × ShiftRegister) :=
  some r.shift

/-- Takes up to `n` outputs off the stream. -/
def take (r : ShiftRegister) : Nat → List Bool × ShiftRegister
  | 0 => ([], r)
  | n + 1 =>
    match r.next? with
    | none => ([], r)
    | some (b, r) =>
      let (bits, r) := r.take n
      (b :: bits, r)

end ShiftRegister

end Keystream
