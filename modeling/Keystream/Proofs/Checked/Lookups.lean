import Keystream.Proofs.Checked.Tables

/-!
# Reading tables without faults

Whoever looks an output up knows that the input lies inside the table: it has been compared with the
largest one, has as many bits as there are variables, or is where a cursor stands.
-/

namespace Keystream.TruthTable

open Checked

def checkedMaxInput (t : TruthTable) : Checked Nat :=
  largest t.arity

theorem arity_lt_word (t : TruthTable) : t.arity < 64 :=
  Nat.lt_of_le_of_lt t.arity_le (by decide)

theorem checkedMaxInput_eq (t : TruthTable) : t.checkedMaxInput = .ok t.maxInput :=
  largest_of_lt t.arity_lt_word

/-- The output for an input that is not tested. -/
def checkedLookup (t : TruthTable) (input : Nat) : Checked Bool :=
  match t with
  | small t => wordBit t.outputs input
  | large t => .ok (t.outputs.testBit input)

theorem checkedLookup_eq (t : TruthTable) (input : Nat) :
    t.checkedLookup input =
      if t.isSmall = true ∧ 64 ≤ input then fault .shiftTooFar else .ok (t.lookup input) := by
  cases t with
  | large t => rfl
  | small t =>
    rcases Nat.lt_or_ge input 64 with h | h
    · rw [if_neg fun hs => Nat.not_le.2 h hs.2]
      exact wordBit_of_lt h t.outputs
    · rw [if_pos ⟨rfl, h⟩]
      exact wordBit_of_le h t.outputs

/-- The output for an input that is known to lie inside the table. -/
def lookupWithin (t : TruthTable) (input : Nat) : Checked Bool :=
  if input < 2 ^ t.arity then t.checkedLookup input else fault .outsideTable

theorem lookupWithin_of_lt {t : TruthTable} {input : Nat} (h : input < 2 ^ t.arity) :
    t.lookupWithin input = .ok (t.lookup input) := by
  rw [lookupWithin, if_pos h, checkedLookup_eq, if_neg]
  rintro ⟨hs, hle⟩
  cases t with
  | large t => cases hs
  | small t =>
    have hsize : 2 ^ t.arity ≤ 64 := Nat.pow_le_pow_right (n := 2) (by decide) t.arity_le
    exact absurd h (Nat.not_lt.2 (Nat.le_trans hsize hle))

def checkedOutput (t : TruthTable) (input : Nat) : Checked Bool := do
  let max ← t.checkedMaxInput
  if max < input then fail (.inputOutOfRange input max) else t.lookupWithin input

theorem checkedOutput_eq (t : TruthTable) (input : Nat) :
    t.checkedOutput input = faultless (t.output input) := by
  rw [checkedOutput, checkedMaxInput_eq, ok_bind, output]
  rcases Nat.lt_or_ge t.maxInput input with h | h
  · rw [if_pos h, if_neg (Nat.not_le.2 h), faultless_error]
  · have hlt : input < 2 ^ t.arity := Nat.lt_of_le_pred (Nat.two_pow_pos t.arity) h
    rw [if_neg (Nat.not_lt.2 h), if_pos h, lookupWithin_of_lt hlt, faultless_ok]

/-- The output for a vector of one bit per variable. -/
def checkedOutputOf (t : TruthTable) (input : BitVector) : Checked Bool :=
  if input.length ≠ t.arity then fail (.lengthMismatch t.arity input.length)
  else t.lookupWithin input.lowWord.toNat

theorem checkedOutputOf_eq (t : TruthTable) (input : BitVector) :
    t.checkedOutputOf input = faultless (t.outputOf input) := by
  rw [checkedOutputOf, outputOf]
  by_cases h : input.length = t.arity
  · rw [if_neg (not_not.2 h), if_pos h, lookupWithin_of_lt (h ▸ input.lowWord_lt), faultless_ok]
  · rw [if_pos h, if_neg h, faultless_error]

def checkedHex (t : TruthTable) : Checked String := do
  let digits ← add (← size t.arity) 3
  return String.ofList (Hex.fixed (digits / 4) t.packed)

theorem checkedHex_eq (t : TruthTable) : t.checkedHex = .ok t.hex := by
  have hle : 2 ^ t.arity ≤ 2 ^ (31 : Nat) := Nat.pow_le_pow_right (by decide) t.arity_le
  have hlt : 2 ^ t.arity + 3 < 2 ^ (64 : Nat) := by omega
  simp only [checkedHex, size_of_lt t.arity_lt_word, ok_bind, add_of_lt hlt, pure_eq]
  rfl

namespace Cursor

def assemble (t : TruthTable) (last position : Nat) : Checked Cursor :=
  if h : last = t.maxInput ∧ position ≤ last + 1 then .ok ⟨t, last, position, h.1, h.2⟩
  else fault .malformed

theorem assemble_eq (c : Cursor) : assemble c.table c.last c.position = .ok c :=
  dif_pos ⟨c.last_eq, c.position_le⟩

def checkedStart (t : TruthTable) : Checked Cursor := do
  assemble t (← t.checkedMaxInput) 0

theorem checkedStart_eq (t : TruthTable) : checkedStart t = .ok t.start := by
  rw [checkedStart, checkedMaxInput_eq, ok_bind]
  exact assemble_eq t.start

theorem last_lt_largest_word (c : Cursor) : c.last + 1 < 2 ^ (64 : Nat) := by
  rw [last_add_one]
  exact Nat.pow_lt_pow_right (by decide) c.table.arity_lt_word

/-- How many outputs are ahead, found from the number of all. -/
def checkedRemaining (c : Cursor) : Checked Nat := do
  return (← add c.last 1) - c.position

theorem checkedRemaining_eq (c : Cursor) : c.checkedRemaining = .ok c.remaining := by
  simp only [checkedRemaining, ok_bind, add_of_lt c.last_lt_largest_word, pure_eq]
  rfl

def checkedNext (c : Cursor) : Checked (Option Bool × Cursor) := do
  if c.last < c.position then
    return (none, c)
  let b ← c.table.lookupWithin c.position
  let after ← assemble c.table c.last (← add c.position 1)
  return (some b, after)

theorem checkedNext_eq (c : Cursor) : c.checkedNext = .ok c.next := by
  have hword := c.last_lt_largest_word
  have hall := c.last_add_one
  rw [checkedNext, next]
  by_cases h : c.position ≤ c.last
  · have hwithin : c.position < 2 ^ c.table.arity := by omega
    have hlt : c.position + 1 < 2 ^ (64 : Nat) := by omega
    have hafter : assemble c.table c.last (c.position + 1) = .ok (c.after h) :=
      assemble_eq (c.after h)
    rw [if_neg (Nat.not_lt.2 h), dif_pos h]
    simp only [pure_eq, ok_bind, lookupWithin_of_lt hwithin, add_of_lt hlt, hafter]
  · rw [if_pos (Nat.lt_of_not_le h), dif_neg h, pure_eq]

/-- Reads `k + 1` outputs, unless there are fewer, and keeps the last one. -/
def checkedNth (c : Cursor) : Nat → Checked (Option Bool × Cursor)
  | 0 => c.checkedNext
  | k + 1 => do
    match ← c.checkedNext with
    | (none, c) => return (none, c)
    | (some _, c) => c.checkedNth k

theorem checkedNth_eq (c : Cursor) (k : Nat) : c.checkedNth k = .ok (c.nth k) := by
  induction k generalizing c with
  | zero => rw [checkedNth, checkedNext_eq, nth]
  | succ k ih =>
    rw [checkedNth, checkedNext_eq, ok_bind, nth, next]
    by_cases h : c.position ≤ c.last
    · rw [dif_pos h]
      exact ih (c.after h)
    · rw [dif_neg h]
      rfl

end Cursor

end Keystream.TruthTable
