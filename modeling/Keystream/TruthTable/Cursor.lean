import Keystream.TruthTable.Basic

/-!
# Walking through the outputs of a table

A cursor stands before the output for input `position`, or behind that for the last input, and it
keeps the last input apart from the table.
-/

namespace Keystream.TruthTable

structure Cursor where
  table : TruthTable
  last : Nat
  position : Nat
  last_eq : last = table.maxInput
  position_le : position ≤ last + 1

def start (t : TruthTable) : Cursor :=
  ⟨t, t.maxInput, 0, rfl, Nat.zero_le _⟩

theorem maxInput_add_one (t : TruthTable) : t.maxInput + 1 = 2 ^ t.arity :=
  Nat.sub_add_cancel (Nat.two_pow_pos t.arity)

namespace Cursor

theorem last_add_one (c : Cursor) : c.last + 1 = 2 ^ c.table.arity := by
  rw [c.last_eq, maxInput_add_one]

def remaining (c : Cursor) : Nat :=
  c.last + 1 - c.position

/-- The cursor behind the output it stands before. -/
def after (c : Cursor) (h : c.position ≤ c.last) : Cursor :=
  ⟨c.table, c.last, c.position + 1, c.last_eq, Nat.succ_le_succ h⟩

def next (c : Cursor) : Option Bool × Cursor :=
  if h : c.position ≤ c.last then (some (c.table.lookup c.position), c.after h) else (none, c)

/-- Reads `k + 1` outputs and keeps the latest; with too few ahead, ends behind the last. -/
def nth (c : Cursor) : Nat → Option Bool × Cursor
  | 0 => c.next
  | k + 1 =>
    match c.next with
    | (some _, d) => d.nth k
    | (none, d) => (none, d)

theorem remaining_of_next {c d : Cursor} {b : Bool} (h : c.next = (some b, d)) :
    d.remaining < c.remaining := by
  unfold next at h
  split at h
  · next hle =>
    cases h
    exact Nat.sub_lt_sub_left (Nat.lt_succ_of_le hle) (Nat.lt_succ_self _)
  · cases h

/-- Reads one output after another in front of those read before, latest first. -/
def readOnto (c : Cursor) (read : List Bool) : List Bool :=
  match _ : c.next with
  | (some b, d) => d.readOnto (b :: read)
  | (none, _) => read.reverse
termination_by c.remaining
decreasing_by exact remaining_of_next ‹_›

/-- All outputs ahead. -/
def toList (c : Cursor) : List Bool :=
  c.readOnto []

end Cursor

end Keystream.TruthTable
