import Keystream.Proofs.Checked.Transform
import Keystream.Proofs.Sources
import Keystream.TruthTable.Cursor
import Keystream.TruthTable.Text

/-!
# Truth tables without faults

A table has at most 31 variables, so the number of its inputs is a word that no increment wraps, and
a table of at most six variables has at most 64 inputs, each a shift that a word allows. Only a
lookup asked for without any test can shift too far: in a small table, from input 64 on.
-/

namespace Keystream

open Checked

/-- The inputs of the largest table there is are still a word. -/
theorem size_of_arity {arity : Nat} (h : arity ≤ 31) : size arity = .ok (2 ^ arity) :=
  size_of_lt (Nat.lt_of_le_of_lt h (by decide))

namespace SmallTable

def assemble (arity : Nat) (outputs : UInt64) : Checked SmallTable :=
  if h : 0 < arity ∧ arity ≤ 6 ∧ outputs.toNat < 2 ^ (2 ^ arity : Nat) then
    .ok ⟨arity, outputs, h.1, h.2.1, h.2.2⟩
  else fault .malformed

/-- Whether a one lies behind the outputs, which is only asked with fewer than six variables. -/
def checkedOverflows (arity : Nat) (outputs : UInt64) : Checked Bool :=
  if arity < 6 then do
    return (← shiftRight outputs (← size arity)) != 0
  else .ok false

theorem checkedOverflows_eq (arity : Nat) (outputs : UInt64) :
    checkedOverflows arity outputs = .ok (overflows arity outputs) := by
  unfold checkedOverflows overflows
  split
  · next h =>
    have hsize : 2 ^ arity < 64 := Nat.pow_lt_pow_right (n := 6) (by decide) h
    simp only [size_of_lt (Nat.lt_trans h (by decide)), ok_bind, shiftRight_of_lt hsize, pure_eq,
      decide_eq_true h, Bool.true_and]
  · next h => rw [decide_eq_false h, Bool.false_and]

/-- The table with these packed outputs; the number of variables is checked before the outputs. -/
def checkedOfWord (arity : Nat) (outputs : UInt64) : Checked SmallTable :=
  if arity = 0 then fail .noVariables
  else if 6 < arity then fail (.tooManyVariables 6)
  else do
    if ← checkedOverflows arity outputs then fail .tableTooLarge
    else assemble arity outputs

theorem checkedOfWord_eq (arity : Nat) (outputs : UInt64) :
    checkedOfWord arity outputs = faultless (ofWord arity outputs) := by
  unfold checkedOfWord ofWord
  split
  · rfl
  · next h₀ =>
    split
    · rfl
    · next h₆ =>
      rw [checkedOverflows_eq, ok_bind]
      by_cases h : overflows arity outputs = false
      · rw [if_neg (Bool.not_eq_true _ ▸ h), dif_pos h]
        exact dif_pos ⟨Nat.pos_of_ne_zero h₀, Nat.le_of_not_lt h₆,
          (overflows_eq_false_iff (Nat.le_of_not_lt h₆) outputs).1 h⟩
      · rw [if_pos (Bool.not_eq_false _ ▸ h), dif_neg h, faultless_error]

end SmallTable

namespace LargeTable

def assemble (arity outputs : Nat) : Checked LargeTable :=
  if h : 0 < arity ∧ arity ≤ 31 ∧ outputs < 2 ^ (2 ^ arity : Nat) then
    .ok ⟨arity, outputs, h.1, h.2.1, h.2.2⟩
  else fault .malformed

/-- The table with these packed outputs; the number of variables is checked before the outputs. -/
def checkedOfPacked (arity outputs : Nat) : Checked LargeTable :=
  if arity = 0 then fail .noVariables
  else if 31 < arity then fail (.tooManyVariables 31)
  else do
    if Bits.fits (← size arity) outputs then assemble arity outputs
    else fail .tableTooLarge

theorem checkedOfPacked_eq (arity outputs : Nat) :
    checkedOfPacked arity outputs = faultless (ofPacked arity outputs) := by
  unfold checkedOfPacked ofPacked
  split
  · rfl
  · next h₀ =>
    split
    · rfl
    · next h₃₁ =>
      simp only [size_of_arity (Nat.le_of_not_lt h₃₁), ok_bind]
      by_cases h : Bits.fits (2 ^ arity) outputs = true
      · rw [if_pos h, dif_pos h]
        exact dif_pos ⟨Nat.pos_of_ne_zero h₀, Nat.le_of_not_lt h₃₁, Bits.fits_iff.1 h⟩
      · rw [if_neg h, dif_neg h, faultless_error]

end LargeTable

namespace TruthTable

def checkedOfWord (arity : Nat) (outputs : UInt64) : Checked TruthTable := do
  return small (← SmallTable.checkedOfWord arity outputs)

theorem checkedOfWord_eq (arity : Nat) (outputs : UInt64) :
    checkedOfWord arity outputs = faultless (ofWord arity outputs) := by
  rw [checkedOfWord, SmallTable.checkedOfWord_eq, ofWord, faultless_map]
  rfl

def checkedLarge (arity outputs : Nat) : Checked TruthTable := do
  return large (← LargeTable.checkedOfPacked arity outputs)

theorem checkedLarge_eq (arity outputs : Nat) :
    checkedLarge arity outputs = faultless ((LargeTable.ofPacked arity outputs).map large) := by
  rw [checkedLarge, LargeTable.checkedOfPacked_eq, faultless_map]
  rfl

/-- What goes on with a number of variables in range. -/
theorem checkArity_bind_eq {α : Type} {arity : Nat} {f : Checked α} {g : Except Error α}
    (h : 0 < arity → arity ≤ 31 → f = faultless g) :
    (faultless (checkArity arity) >>= fun _ => f) = faultless (checkArity arity >>= fun _ => g) := by
  rw [faultless_bind]
  cases hc : checkArity arity with
  | error e => rfl
  | ok u =>
    obtain ⟨hpos, hle⟩ := range_of_checkArity hc
    exact h hpos hle

/-- The table with these packed outputs. -/
def checkedOfPacked (arity packed : Nat) : Checked TruthTable := do
  faultless (checkArity arity)
  if Bits.fits (← size arity) packed then
    if arity ≤ 6 then checkedOfWord arity (UInt64.ofNat packed) else checkedLarge arity packed
  else fail .tableTooLarge

theorem checkedOfPacked_eq (arity packed : Nat) :
    checkedOfPacked arity packed = faultless (ofPacked arity packed) := by
  apply checkArity_bind_eq
  intro _ hle
  simp only [size_of_arity hle, ok_bind]
  split
  · split
    · exact checkedOfWord_eq arity _
    · exact checkedLarge_eq arity packed
  · rfl

/-- The table whose outputs, that for input 0 first, are written as numbers. -/
def checkedOfNumbers (arity : Nat) (values : List Nat) : Checked TruthTable := do
  faultless (checkArity arity)
  let expected ← size arity
  if values.length = expected then
    checkedOfPacked arity (← BitVector.checkedOfNumbers values).toNat
  else fail (.wrongTableLength expected values.length)

theorem checkedOfNumbers_eq (arity : Nat) (values : List Nat) :
    checkedOfNumbers arity values = faultless (ofNumbers arity values) := by
  apply checkArity_bind_eq
  intro _ hle
  simp only [size_of_arity hle, ok_bind]
  split
  · simp only [BitVector.checkedOfNumbers_eq, checkedOfPacked_eq, faultless_bind]
  · rfl

/-- The table of a function, put together one by one from the inputs with output one. -/
def checkedTabulate (arity : Nat) (f : Nat → Bool) : Checked TruthTable := do
  faultless (checkArity arity)
  let inputs := (List.range ((← largest arity) + 1)).filter f
  if arity ≤ 6 then
    checkedOfWord arity (← inputs.foldlM (fun w x => return w ||| (← single x)) 0)
  else checkedLarge arity (inputs.foldl (fun v x => Bits.put v x true) 0)

theorem checkedTabulate_eq (arity : Nat) (f : Nat → Bool) :
    checkedTabulate arity f = faultless (tabulate arity f) := by
  apply checkArity_bind_eq
  intro _ hle
  simp only [largest_of_lt (Nat.lt_of_le_of_lt hle (by decide)), ok_bind,
    Nat.sub_add_cancel (Nat.two_pow_pos arity)]
  split
  · next h =>
    have hsize : 2 ^ arity ≤ 64 := (Nat.pow_le_pow_right Nat.two_pos h : 2 ^ arity ≤ 2 ^ 6)
    have hstep : ∀ (w : UInt64), ∀ x ∈ (List.range (2 ^ arity)).filter f,
        (do return w ||| (← single x) : Checked UInt64) = .ok (w ||| Word.single x) := by
      intro w x hx
      have hx := List.mem_range.1 (List.mem_filter.1 hx).1
      rw [single_of_lt (Nat.lt_of_lt_of_le hx hsize)]
      rfl
    rw [foldlM_eq hstep, ok_bind, checkedOfWord_eq]
  · exact checkedLarge_eq arity _

def checkedConstant (arity : Nat) (b : Bool) : Checked TruthTable := do
  faultless (checkArity arity)
  if b then
    checkedOfPacked arity (← sub (2 ^ (← size arity)) 1)
  else checkedOfPacked arity 0

theorem checkedConstant_eq (arity : Nat) (b : Bool) :
    checkedConstant arity b = faultless (constant arity b) := by
  apply checkArity_bind_eq
  intro _ hle
  simp only [size_of_arity hle, ok_bind, checkedOfPacked_eq,
    sub_of_le (Nat.two_pow_pos _)]
  cases b <;> rfl

/-- Reads a table; the length in bytes is checked before the digits. -/
def checkedOfHex (s : String) : Checked TruthTable :=
  let bytes := s.utf8ByteSize
  if bytes = 2 ^ bytes.log2 then
    match Hex.read? s.toList with
    | some packed => checkedOfPacked (bytes.log2 + 2) packed
    | none => fail .invalidHex
  else fail .wrongHexLength

theorem checkedOfHex_eq (s : String) : checkedOfHex s = faultless (ofHex s) := by
  simp only [checkedOfHex, ofHex, ofHexBy]
  split
  · cases Hex.read? s.toList with
    | some packed => exact checkedOfPacked_eq _ packed
    | none => rfl
  · rfl

def Source.checkedBuild : Source → Checked TruthTable
  | numbers arity values => checkedOfNumbers arity values
  | .packed arity v => checkedOfPacked arity v
  | word arity outputs => checkedOfWord arity outputs
  | hex s => checkedOfHex s
  | constant arity b => checkedConstant arity b
  | form f => checkedTabulate f.arity fun x => f.eval (UInt64.ofNat x)

theorem Source.checkedBuild_eq (s : Source) : s.checkedBuild = faultless s.build := by
  cases s with
  | numbers arity values => exact checkedOfNumbers_eq arity values
  | packed arity v => exact checkedOfPacked_eq arity v
  | word arity outputs => exact checkedOfWord_eq arity outputs
  | hex s => exact checkedOfHex_eq s
  | constant arity b => exact checkedConstant_eq arity b
  | form f => exact checkedTabulate_eq f.arity _

end TruthTable

end Keystream
