import Keystream.Proofs.Runs
import Keystream.ShiftRegister

/-!
# Registers as streams of outputs

All ways to read outputs off a register, with or without shifting it, read the same stream
`outputAt`. Calls of all kinds in any order are answered from the stream of the first register, at
a position that only the shifting calls move.
-/

namespace Keystream.ShiftRegister

@[simp] theorem length_advanceBy (r : ShiftRegister) (n : Nat) :
    (r.advanceBy n).length = r.length := by
  induction n generalizing r with
  | zero => rfl
  | succ n ih => exact ih r.advance

@[simp] theorem taps_advanceBy (r : ShiftRegister) (n : Nat) : (r.advanceBy n).taps = r.taps := by
  induction n generalizing r with
  | zero => rfl
  | succ n ih => exact ih r.advance

theorem outputAt_add (r : ShiftRegister) (m k : Nat) :
    r.outputAt (m + k) = (r.advanceBy m).outputAt k := by
  rw [outputAt_eq, outputAt_eq, advanceBy_add]

theorem shift_advanceBy (r : ShiftRegister) (n : Nat) :
    (r.advanceBy n).shift = (r.outputAt n, r.advanceBy (n + 1)) := by
  rw [outputAt_eq, advanceBy_add]
  rfl

theorem shiftPast_eq_outputAt (r : ShiftRegister) (k : Nat) :
    r.shiftPast k = (r.outputAt k, r.advanceBy (k + 1)) :=
  (r.shiftPast_eq k).trans (r.shift_advanceBy k)

theorem outputs_eq_map (r : ShiftRegister) (n : Nat) :
    r.outputs n = (List.range n).map r.outputAt := by
  induction n generalizing r with
  | zero => rfl
  | succ n ih =>
    have htail : r.advance.outputAt = r.outputAt ∘ Nat.succ := by
      funext k
      rw [Function.comp_apply, Nat.succ_eq_one_add, outputAt_add]
      rfl
    rw [outputs_succ, ih, htail, List.range_succ_eq_map, List.map_cons, List.map_map]
    rfl

theorem outputs_add (r : ShiftRegister) (m k : Nat) :
    r.outputs (m + k) = r.outputs m ++ (r.advanceBy m).outputs k := by
  have htail : (r.advanceBy m).outputAt = r.outputAt ∘ (m + ·) :=
    funext fun i => (r.outputAt_add m i).symm
  rw [outputs_eq_map, outputs_eq_map, outputs_eq_map, htail, List.range_add, List.map_append,
    List.map_map]

theorem take_outputs (r : ShiftRegister) (m k : Nat) :
    (r.outputs (m + k)).take m = r.outputs m := by
  have hlength : (r.outputs m).length = m := by
    rw [outputs_eq_map, List.length_map, List.length_range]
  rw [outputs_add, List.take_left' hlength]

theorem run_eq (r : ShiftRegister) (n : Nat) : r.run n = (r.outputs n, r.advanceBy n) := by
  induction n generalizing r with
  | zero => rfl
  | succ n ih => rw [run_succ, ih, outputs_succ, advanceBy_succ]

theorem take_eq_run (r : ShiftRegister) (n : Nat) : r.take n = r.run n := by
  induction n generalizing r with
  | zero => rfl
  | succ n ih =>
    rw [run_succ, ← ih]
    rfl

/-- A call on a register: three that look ahead, three that shift, and two on the stream. -/
inductive Call where
  | output
  | outputs (n : Nat)
  | outputAt (k : Nat)
  | shift
  | run (n : Nat)
  | shiftPast (k : Nat)
  | next
  | take (n : Nat)

namespace Call

/-- The bits of the answer, and the register after the call. -/
def perform : Call → ShiftRegister → List Bool × ShiftRegister
  | output, r => ([r.output], r)
  | outputs n, r => (r.outputs n, r)
  | outputAt k, r => ([r.outputAt k], r)
  | shift, r =>
    let (b, r) := r.shift
    ([b], r)
  | run n, r => r.run n
  | shiftPast k, r =>
    let (b, r) := r.shiftPast k
    ([b], r)
  | next, r =>
    match r.next? with
    | none => ([], r)
    | some (b, r) => ([b], r)
  | take n, r => r.take n

/-- What the call reads off a stream at a position, and the position after it. -/
def read (stream : Nat → Bool) (c : Call) (position : Nat) : List Bool × Nat :=
  match c with
  | output => ([stream position], position)
  | outputs n => ((List.range n).map fun i => stream (position + i), position)
  | outputAt k => ([stream (position + k)], position)
  | shift | next => ([stream position], position + 1)
  | run n | take n => ((List.range n).map fun i => stream (position + i), position + n)
  | shiftPast k => ([stream (position + k)], position + (k + 1))

end Call

/-- A call on the register at a position of its stream reads there and moves on. -/
theorem perform_advanceBy (r : ShiftRegister) (c : Call) (p : Nat) :
    c.perform (r.advanceBy p) =
      ((c.read r.outputAt p).1, r.advanceBy (c.read r.outputAt p).2) := by
  have hstream : (r.advanceBy p).outputAt = fun i => r.outputAt (p + i) :=
    funext fun i => (r.outputAt_add p i).symm
  have houtputs : ∀ n, (r.advanceBy p).outputs n = (List.range n).map fun i => r.outputAt (p + i) :=
    fun n => by rw [outputs_eq_map, hstream]
  cases c with
  | output =>
    rw [Call.read, outputAt_eq]
    rfl
  | outputs n =>
    rw [Call.perform, houtputs]
    rfl
  | outputAt k =>
    rw [Call.perform, hstream]
    rfl
  | shift =>
    rw [Call.perform, shift_advanceBy]
    rfl
  | run n =>
    rw [Call.perform, run_eq, houtputs, ← advanceBy_add]
    rfl
  | shiftPast k =>
    rw [Call.perform, shiftPast_eq_outputAt, ← outputAt_add, ← advanceBy_add]
    rfl
  | next =>
    rw [Call.perform, next?, shift_advanceBy]
    rfl
  | take n =>
    rw [Call.perform, take_eq_run, run_eq, houtputs, ← advanceBy_add]
    rfl

theorem performAll_eq (r : ShiftRegister) (calls : List Call) :
    performAll Call.perform calls r =
      ((performAll (Call.read r.outputAt) calls 0).1,
        r.advanceBy (performAll (Call.read r.outputAt) calls 0).2) :=
  performAll_view r.perform_advanceBy calls 0

theorem performAll_read_shifts (stream : Nat → Bool) (m p : Nat) :
    performAll (Call.read stream) (List.replicate m .shift) p =
      ((List.range m).map fun i => [stream (p + i)], p + m) := by
  induction m generalizing p with
  | zero => rfl
  | succ m ih =>
    rw [List.replicate_succ, performAll_cons, Call.read, ih,
      map_range_succ fun i => [stream i], Nat.add_assoc, Nat.add_comm 1]

/-- Looking ahead shows what shifting puts out, however the shifts are made, and leaves the register
alone; so calls of all kinds, in any order, read one stream. -/
theorem peeks_foretell_shifts (r : ShiftRegister) :
    (∀ m, (r.run m).1 = r.outputs m ∧ r.take m = r.run m ∧
      performAll Call.perform (List.replicate m .shift) r =
        ((r.outputs m).map fun b => [b], (r.run m).2)) ∧
    (∀ k, (r.outputs (k + 1)).getLast? = some (r.outputAt k) ∧
      r.shiftPast k = (r.outputAt k, (r.run (k + 1)).2)) ∧
    (∀ m k, r.outputs (m + k) = r.outputs m ++ (r.run m).2.outputs k) ∧
    (∀ m k, (performAll Call.perform [.output, .outputs m, .outputAt k] r).2 = r) ∧
    ∀ calls : List Call,
      performAll Call.perform calls r =
        ((performAll (Call.read r.outputAt) calls 0).1,
          (r.run (performAll (Call.read r.outputAt) calls 0).2).2) ∧
      (performAll Call.perform calls r).2.next?.isSome = true := by
  refine ⟨?_, ?_, ?_, fun _ _ => rfl, ?_⟩
  · intro m
    refine ⟨by rw [run_eq], r.take_eq_run m, ?_⟩
    rw [performAll_eq, performAll_read_shifts, run_eq, outputs_eq_map, List.map_map]
    simp only [Nat.zero_add]
    rfl
  · intro k
    constructor
    · rw [outputs_eq_map, List.range_succ, List.map_append, List.map_singleton,
        List.getLast?_concat]
    · rw [shiftPast_eq_outputAt, run_eq]
  · intro m k
    rw [outputs_add, run_eq]
  · intro calls
    refine ⟨?_, rfl⟩
    rw [performAll_eq, run_eq]

end Keystream.ShiftRegister
