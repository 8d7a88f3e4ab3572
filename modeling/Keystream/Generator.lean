import Keystream.BooleanFunction
import Keystream.ShiftRegister

/-!
# Combination generators

A generator combines the outputs of shift registers by a Boolean function. At each tick the inputs
of the function are served in order: the register wired to an input is shifted once and its output
is the value of that input. A register wired to several inputs is shifted once for each.
-/

namespace Keystream

/-- A function and the register wired to each of its inputs, among `k` registers. -/
structure Generator (k : Nat) where
  function : BooleanFunction
  wiring : List (Fin k)

namespace Generator

variable {k : Nat}

/-- Shifts the registers of a list in order: their outputs, and all registers after that. -/
def clock : List (Fin k) → Vector ShiftRegister k → List Bool × Vector ShiftRegister k
  | [], rs => ([], rs)
  | i :: wiring, rs =>
    let (b, r) := (rs.get i).shift
    let (bits, rs) := clock wiring (rs.set i r i.isLt)
    (b :: bits, rs)

def tick (g : Generator k) (rs : Vector ShiftRegister k) :
    Except Error Bool × Vector ShiftRegister k :=
  let (bits, rs) := clock g.wiring rs
  (g.function.eval (.ofBits bits), rs)

/-- Runs `n` ticks behind bits put out before, the last one first; an error ends the run. -/
def runOnto (g : Generator k) (bits : List Bool) (rs : Vector ShiftRegister k) :
    Nat → Except Error (List Bool) × Vector ShiftRegister k
  | 0 => (.ok bits.reverse, rs)
  | n + 1 =>
    match g.tick rs with
    | (.error e, rs) => (.error e, rs)
    | (.ok b, rs) => runOnto g (b :: bits) rs n

/-- The next `n` bits of keystream, and the registers after them. -/
def run (g : Generator k) (rs : Vector ShiftRegister k) (n : Nat) :
    Except Error (List Bool) × Vector ShiftRegister k :=
  g.runOnto [] rs n

end Generator

end Keystream
