import Keystream.Generator
import Keystream.Proofs.BitLists
import Keystream.Proofs.Streams
import Keystream.Proofs.Views

/-!
# The keystream of a generator

Registers that serve several inputs are shifted several times in a tick, between shifts of others;
still each puts out its own stream. At tick `t` a register wired to `m` inputs serves them in order
with its outputs from number `m * t` on. The keystream is the function of these outputs, and after
`n` ticks the register has been shifted `m * n` times.
-/

namespace Keystream

theorem BooleanFunction.eval_ofBits (f : BooleanFunction) {bits : List Bool}
    (h : bits.length = f.arity) :
    f.eval (.ofBits bits) = .ok (f.evalWord (UInt64.ofNat (Bits.toNat bits))) := by
  have hlt : Bits.toNat bits < 2 ^ f.arity := h ▸ Bits.toNat_lt bits
  have hword : BitVector.ofBits bits = .ofWord f.arity (UInt64.ofNat (Bits.toNat bits)) := by
    apply BitVector.ext_toNat h
    rw [BitVector.toNat_ofBits, BitVector.toNat_ofWord,
      Word.toNat_ofNat_of_lt (Nat.le_succ_of_le f.arity_le) hlt, Nat.mod_eq_of_lt hlt]
  rw [hword, eval_ofWord]

theorem BooleanFunction.eval_of_ne (f : BooleanFunction) {x : BitVector} (h : x.length ≠ f.arity) :
    f.eval x = .error (.lengthMismatch f.arity x.length) := by
  rw [eval, if_neg h]

namespace Generator

variable {k : Nat}

/-- The registers, each shifted as often as `counts` says. -/
def shifted (counts : Fin k → Nat) (rs : Vector ShiftRegister k) : Vector ShiftRegister k :=
  Vector.ofFn fun i => (rs.get i).advanceBy (counts i)

theorem ext_registers {rs ss : Vector ShiftRegister k} (h : ∀ i : Fin k, rs.get i = ss.get i) :
    rs = ss := by
  apply Vector.ext
  intro i hi
  exact h ⟨i, hi⟩

theorem get_shifted (counts : Fin k → Nat) (rs : Vector ShiftRegister k) (i : Fin k) :
    (shifted counts rs).get i = (rs.get i).advanceBy (counts i) :=
  Vector.getElem_ofFn i.isLt

theorem shifted_zero (rs : Vector ShiftRegister k) : shifted (fun _ => 0) rs = rs :=
  ext_registers (get_shifted (fun _ => 0) rs)

theorem shifted_shifted (c d : Fin k → Nat) (rs : Vector ShiftRegister k) :
    shifted d (shifted c rs) = shifted (fun i => c i + d i) rs := by
  apply ext_registers
  intro i
  rw [get_shifted, get_shifted, get_shifted, ShiftRegister.advanceBy_add]

/-- Shifting one register shifts every register once for each time it is that one. -/
theorem set_advance (rs : Vector ShiftRegister k) (i : Fin k) :
    rs.set i (rs.get i).advance i.isLt = shifted (fun j => if i == j then 1 else 0) rs := by
  apply ext_registers
  intro j
  have hset : (rs.set i (rs.get i).advance i.isLt).get j =
      if i.val = j.val then (rs.get i).advance else rs.get j :=
    Vector.getElem_set i.isLt j.isLt
  rw [hset, get_shifted]
  by_cases h : i = j
  · subst h
    rw [if_pos rfl, beq_self_eq_true, if_pos rfl]
    rfl
  · rw [if_neg (Fin.val_ne_of_ne h), beq_false_of_ne h, if_neg Bool.false_ne_true]
    rfl

/-- Clocking serves each input with the output that its register has come to after the inputs before
it, and shifts each register once for every input it is wired to. -/
theorem clock_eq (wiring : List (Fin k)) (rs : Vector ShiftRegister k) :
    clock wiring rs =
      (List.ofFn fun p : Fin wiring.length =>
        (rs.get wiring[p]).outputAt ((wiring.take p).count wiring[p]),
        shifted wiring.count rs) := by
  induction wiring generalizing rs with
  | nil => exact Prod.ext rfl (shifted_zero rs).symm
  | cons i wiring ih =>
    have hstep : clock (i :: wiring) rs =
        ((rs.get i).output :: (clock wiring (rs.set i (rs.get i).advance i.isLt)).1,
          (clock wiring (rs.set i (rs.get i).advance i.isLt)).2) := rfl
    have hcount : ∀ j (l : List (Fin k)),
        (i :: l).count j = (if i == j then 1 else 0) + l.count j :=
      fun j l => by rw [List.count_cons, Nat.add_comm]
    have hshifts : shifted (fun j => (if i == j then 1 else 0) + wiring.count j) rs =
        shifted (i :: wiring).count rs :=
      congrArg (shifted · rs) (funext fun j => (hcount j wiring).symm)
    have htail : ∀ p : Fin wiring.length,
        ((shifted (fun j => if i == j then 1 else 0) rs).get wiring[p]).outputAt
          ((wiring.take p).count wiring[p]) =
        (rs.get wiring[p]).outputAt ((i :: wiring.take p).count wiring[p]) := by
      intro p
      rw [get_shifted, ← ShiftRegister.outputAt_add, ← hcount]
    rw [hstep, set_advance, ih, shifted_shifted, hshifts, List.ofFn_succ]
    simp only [htail]
    rfl

/-- What the inputs read at tick `t`: a register wired to `m` of them has put out `m * t` bits in
the ticks before, and one more for each input before that it serves. -/
def inputs (g : Generator k) (rs : Vector ShiftRegister k) (t : Nat) : List Bool :=
  List.ofFn fun p : Fin g.wiring.length =>
    let i := g.wiring[p]
    (rs.get i).outputAt (g.wiring.count i * t + (g.wiring.take p).count i)

/-- The registers after `t` ticks. -/
def after (g : Generator k) (rs : Vector ShiftRegister k) (t : Nat) : Vector ShiftRegister k :=
  shifted (fun i => g.wiring.count i * t) rs

theorem tick_after (g : Generator k) (rs : Vector ShiftRegister k) (t : Nat) :
    g.tick (g.after rs t) = (g.function.eval (.ofBits (g.inputs rs t)), g.after rs (t + 1)) := by
  have hinputs : (List.ofFn fun p : Fin g.wiring.length =>
      ((g.after rs t).get g.wiring[p]).outputAt ((g.wiring.take p).count g.wiring[p])) =
        g.inputs rs t := by
    simp only [after, get_shifted, ← ShiftRegister.outputAt_add]
    rfl
  rw [tick, clock_eq, hinputs, after, shifted_shifted]
  rfl

theorem length_inputs (g : Generator k) (rs : Vector ShiftRegister k) (t : Nat) :
    (g.inputs rs t).length = g.wiring.length :=
  List.length_ofFn

/-- The bit of keystream that tick `t` gives. -/
def keystream (g : Generator k) (rs : Vector ShiftRegister k) (t : Nat) : Bool :=
  g.function.evalWord (UInt64.ofNat (Bits.toNat (g.inputs rs t)))

theorem runOnto_after {g : Generator k} (h : g.wiring.length = g.function.arity)
    (rs : Vector ShiftRegister k) (bits : List Bool) (t n : Nat) :
    g.runOnto bits (g.after rs t) n =
      (.ok (bits.reverse ++ (List.range n).map fun i => g.keystream rs (t + i)),
        g.after rs (t + n)) := by
  induction n generalizing bits t with
  | zero => rw [runOnto, List.range_zero, List.map_nil, List.append_nil, Nat.add_zero]
  | succ n ih =>
    have htick : g.tick (g.after rs t) = (.ok (g.keystream rs t), g.after rs (t + 1)) := by
      rw [tick_after, g.function.eval_ofBits ((g.length_inputs rs t).trans h)]
      rfl
    rw [runOnto, htick]
    simp only
    rw [ih, List.reverse_cons, List.append_assoc, map_range_succ, Nat.add_assoc, Nat.add_comm 1]
    rfl

theorem runOnto_of_ne {g : Generator k} (h : g.wiring.length ≠ g.function.arity)
    (rs : Vector ShiftRegister k) (bits : List Bool) (t n : Nat) :
    g.runOnto bits (g.after rs t) (n + 1) =
      (.error (.lengthMismatch g.function.arity g.wiring.length), g.after rs (t + 1)) := by
  have hlength : (BitVector.ofBits (g.inputs rs t)).length = g.wiring.length :=
    g.length_inputs rs t
  have htick : g.tick (g.after rs t) =
      (.error (.lengthMismatch g.function.arity g.wiring.length), g.after rs (t + 1)) := by
    rw [tick_after, g.function.eval_of_ne (hlength ▸ h), hlength]
  rw [runOnto, htick]

theorem after_zero (g : Generator k) (rs : Vector ShiftRegister k) : g.after rs 0 = rs :=
  shifted_zero rs

theorem get_after (g : Generator k) (rs : Vector ShiftRegister k) (t : Nat) (i : Fin k) :
    (g.after rs t).get i = ((rs.get i).run (g.wiring.count i * t)).2 := by
  rw [after, get_shifted, ShiftRegister.run_eq]

/-- If the wiring has one register for each variable, no tick fails: bit `t` is the value of the
function at the number made of its inputs at tick `t`, and a register wired to `m` inputs is left as
`m * n` shifts of it alone leave it. Otherwise the first tick fails, after one shift per input. -/
theorem run_serves_inputs (g : Generator k) (rs : Vector ShiftRegister k) (n : Nat) :
    (g.wiring.length = g.function.arity →
      (∃ bits, (g.run rs n).1 = .ok bits ∧ bits.length = n ∧
        ∀ t, t < n → bits[t]? =
          some (g.function.evalWord (UInt64.ofNat
            ((g.inputs rs t).zipIdx.map fun e : Bool × Nat => e.1.toNat * 2 ^ e.2).sum))) ∧
      ∀ i : Fin k, (g.run rs n).2.get i = ((rs.get i).run (g.wiring.count i * n)).2) ∧
    (g.wiring.length ≠ g.function.arity → 0 < n →
      (g.run rs n).1 = .error (.lengthMismatch g.function.arity g.wiring.length) ∧
      ∀ i : Fin k, (g.run rs n).2.get i = ((rs.get i).run (g.wiring.count i)).2) := by
  constructor
  · intro h
    have hrun := runOnto_after h rs [] 0 n
    rw [after_zero] at hrun
    rw [run, hrun]
    refine ⟨⟨_, rfl, ?_, ?_⟩, ?_⟩
    · rw [List.reverse_nil, List.nil_append, List.length_map, List.length_range]
    · intro t ht
      rw [List.reverse_nil, List.nil_append, List.getElem?_map, List.getElem?_range ht,
        ← Bits.toNat_eq_sum, Option.map_some, Nat.zero_add, keystream]
    · intro i
      rw [Nat.zero_add]
      exact g.get_after rs n i
  · intro h hn
    obtain ⟨n, rfl⟩ := Nat.exists_eq_add_one_of_ne_zero (Nat.ne_of_gt hn)
    have hrun := runOnto_of_ne h rs [] 0 n
    rw [after_zero] at hrun
    rw [run, hrun]
    refine ⟨rfl, ?_⟩
    intro i
    have hafter := g.get_after rs 1 i
    rwa [Nat.mul_one] at hafter

/-- Three inputs served by two registers, of which the first serves two, and the same registers with
one input too few. -/
theorem run_serves_inputs_example :
    ∃ f r s, NormalForm.ofMonomials 3 [0b011, 0b110, 0b100] = .ok f ∧
      ShiftRegister.ofVectors (.ofNat 4 0b0011) (.ofNat 4 0b0001) = .ok r ∧
      ShiftRegister.ofVectors (.ofNat 5 0b00101) (.ofNat 5 0b10011) = .ok s ∧
      let g : Generator 2 := ⟨.ofForm f, [0, 1, 0]⟩
      let h : Generator 2 := ⟨.ofForm f, [0, 1]⟩
      (g.wiring.length = g.function.arity ∧
        (∃ bits, (g.run #v[r, s] 40).1 = .ok bits ∧ bits[7]? = some (g.function.evalWord 0b110)) ∧
        (g.run #v[r, s] 40).2.get 0 = (r.run 80).2) ∧
      h.wiring.length ≠ h.function.arity ∧
      (h.run #v[r, s] 40).1 = .error (.lengthMismatch 3 2) ∧
      (h.run #v[r, s] 40).2.get 1 = (s.run 1).2 := by
  obtain ⟨f, r, s, hf, hr, hs, harity, hinputs⟩ : ∃ f r s,
      NormalForm.ofMonomials 3 [0b011, 0b110, 0b100] = .ok f ∧
      ShiftRegister.ofVectors (.ofNat 4 0b0011) (.ofNat 4 0b0001) = .ok r ∧
      ShiftRegister.ofVectors (.ofNat 5 0b00101) (.ofNat 5 0b10011) = .ok s ∧ f.arity = 3 ∧
      inputs (k := 2) ⟨.ofForm f, [0, 1, 0]⟩ #v[r, s] 7 = [false, true, true] :=
    ⟨_, _, _, rfl, rfl, rfl, rfl, by decide +kernel⟩
  have hg : [0, 1, 0].length = (BooleanFunction.ofForm f).arity := harity.symm
  have hh : [0, 1].length ≠ (BooleanFunction.ofForm f).arity := by
    change 2 ≠ f.arity
    omega
  obtain ⟨⟨bits, hbits, -, hbit⟩, hregisters⟩ :=
    (run_serves_inputs ⟨.ofForm f, [0, 1, 0]⟩ #v[r, s] 40).1 hg
  obtain ⟨herror, hshifted⟩ :=
    (run_serves_inputs ⟨.ofForm f, [0, 1]⟩ #v[r, s] 40).2 hh (by decide)
  have h7 := hbit 7 (by decide)
  rw [hinputs] at h7
  refine ⟨f, r, s, hf, hr, hs, ⟨hg, ⟨bits, hbits, h7⟩, hregisters 0⟩, hh, ?_, hshifted 1⟩
  exact herror.trans (congrArg (fun n => Except.error (Error.lengthMismatch n 2)) harity)

end Generator

end Keystream
