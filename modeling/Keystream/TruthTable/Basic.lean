import Keystream.BitVector.Basic
import Keystream.TruthTable.Moebius

/-!
# Truth tables

The outputs of a Boolean function of at most 31 variables, packed so that bit `x` is the output for
input `x`, where bit `i` of an input is the value of variable `i`. A small table is one word and has
at most six variables; a large table is a natural number and may have any number of variables up to
31, but `TruthTable.ofPacked` keeps six or fewer in a small one.
-/

namespace Keystream

structure SmallTable where
  arity : Nat
  outputs : UInt64
  arity_pos : 0 < arity
  arity_le : arity ≤ 6
  outputs_lt : outputs.toNat < 2 ^ (2 ^ arity : Nat)
  deriving DecidableEq

structure LargeTable where
  arity : Nat
  outputs : Nat
  arity_pos : 0 < arity
  arity_le : arity ≤ 31
  outputs_lt : outputs < 2 ^ (2 ^ arity : Nat)
  deriving DecidableEq

namespace SmallTable

/-- Whether a one lies behind the outputs. Six variables fill the word, and no shift would be long
enough to leave nothing of it. -/
def overflows (arity : Nat) (outputs : UInt64) : Bool :=
  arity < 6 && outputs >>> UInt64.ofNat (2 ^ arity) != 0

theorem overflows_eq_false_iff {arity : Nat} (h : arity ≤ 6) (outputs : UInt64) :
    overflows arity outputs = false ↔ outputs.toNat < 2 ^ (2 ^ arity : Nat) := by
  unfold overflows
  rcases Nat.lt_or_eq_of_le h with hlt | rfl
  · have hsize : 2 ^ arity < 64 := Nat.pow_lt_pow_right (n := 6) (by decide) hlt
    rw [decide_eq_true hlt, Bool.true_and, bne_eq_false_iff_eq, ← UInt64.toNat_inj,
      Word.toNat_shiftRight outputs hsize]
    exact Nat.div_eq_zero_iff_lt (Nat.two_pow_pos _)
  · exact iff_of_true rfl outputs.toNat_lt

/-- The table with these packed outputs; the number of variables is checked before the outputs. -/
def ofWord (arity : Nat) (outputs : UInt64) : Except Error SmallTable :=
  if h₀ : arity = 0 then .error .noVariables
  else if h₆ : 6 < arity then .error (.tooManyVariables 6)
  else if h : overflows arity outputs = false then
    .ok ⟨arity, outputs, Nat.pos_of_ne_zero h₀, Nat.le_of_not_lt h₆,
      (overflows_eq_false_iff (Nat.le_of_not_lt h₆) outputs).1 h⟩
  else .error .tableTooLarge

end SmallTable

/-- The table with these packed outputs; the number of variables is checked before the outputs. -/
def LargeTable.ofPacked (arity outputs : Nat) : Except Error LargeTable :=
  if h₀ : arity = 0 then .error .noVariables
  else if h₃₁ : 31 < arity then .error (.tooManyVariables 31)
  else if h : Bits.fits (2 ^ arity) outputs then
    .ok ⟨arity, outputs, by omega, by omega, Bits.fits_iff.1 h⟩
  else .error .tableTooLarge

inductive TruthTable where
  | small (table : SmallTable)
  | large (table : LargeTable)
  deriving DecidableEq

namespace TruthTable

def isSmall : TruthTable → Bool
  | small _ => true
  | large _ => false

def arity : TruthTable → Nat
  | small t => t.arity
  | large t => t.arity

theorem arity_pos (t : TruthTable) : 0 < t.arity := by
  cases t with
  | small t => exact t.arity_pos
  | large t => exact t.arity_pos

theorem arity_le (t : TruthTable) : t.arity ≤ 31 := by
  cases t with
  | small t => exact Nat.le_trans t.arity_le (by decide)
  | large t => exact t.arity_le

/-- The number whose bit `x` is the output for input `x`. -/
def packed : TruthTable → Nat
  | small t => t.outputs.toNat
  | large t => t.outputs

theorem packed_lt (t : TruthTable) : t.packed < 2 ^ (2 ^ t.arity : Nat) := by
  cases t with
  | small t => exact t.outputs_lt
  | large t => exact t.outputs_lt

/-- The packed outputs, if they need no more than one word. -/
def toWord? (t : TruthTable) : Option UInt64 :=
  if Bits.fits 64 t.packed then some (UInt64.ofNat t.packed) else none

def maxInput (t : TruthTable) : Nat :=
  2 ^ t.arity - 1

/-- The output for an input, which is zero outside the table. -/
def lookup (t : TruthTable) (input : Nat) : Bool :=
  match t with
  | small t => Word.bit t.outputs input
  | large t => t.outputs.testBit input

theorem lookup_eq_testBit (t : TruthTable) (input : Nat) :
    t.lookup input = t.packed.testBit input := by
  cases t <;> rfl

def output (t : TruthTable) (input : Nat) : Except Error Bool :=
  if input ≤ t.maxInput then .ok (t.lookup input) else .error (.inputOutOfRange input t.maxInput)

/-- The output for a vector of one bit per variable. -/
def outputOf (t : TruthTable) (input : BitVector) : Except Error Bool :=
  if input.length = t.arity then .ok (t.lookup input.lowWord.toNat)
  else .error (.lengthMismatch t.arity input.length)

def weight : TruthTable → Nat
  | small t => Word.ones t.outputs
  | large t => Bits.ones t.outputs

/-- The number whose bit `m` is the coefficient of monomial `m` in the algebraic normal form, where a
small table goes through a given transform of words. -/
def coefficients (transform : Nat → UInt64 → UInt64) : TruthTable → Nat
  | small t => (Word.low (2 ^ t.arity) (transform t.arity t.outputs)).toNat
  | large t => Moebius.transformPacked t.arity t.outputs

theorem coefficients_lt (transform : Nat → UInt64 → UInt64) (t : TruthTable) :
    t.coefficients transform < 2 ^ (2 ^ t.arity : Nat) := by
  cases t with
  | small t => exact Word.toNat_low_lt _ _
  | large t => exact Moebius.transformPacked_lt _ _

def checkArity (arity : Nat) : Except Error Unit :=
  if arity = 0 then .error .noVariables
  else if 31 < arity then .error (.tooManyVariables 31)
  else .ok ()

def ofWord (arity : Nat) (outputs : UInt64) : Except Error TruthTable :=
  (SmallTable.ofWord arity outputs).map small

/-- The table with these packed outputs. At most six variables leave nothing beyond the lowest word,
which is all that a small table takes. -/
def ofPacked (arity packed : Nat) : Except Error TruthTable := do
  checkArity arity
  if Bits.fits (2 ^ arity) packed then
    if arity ≤ 6 then ofWord arity (UInt64.ofNat packed)
    else (LargeTable.ofPacked arity packed).map large
  else .error .tableTooLarge

/-- The table whose outputs, that for input 0 first, are written as numbers. -/
def ofNumbers (arity : Nat) (values : List Nat) : Except Error TruthTable := do
  checkArity arity
  if values.length = 2 ^ arity then
    ofPacked arity (← BitVector.ofNumbers values).toNat
  else .error (.wrongTableLength (2 ^ arity) values.length)

/-- The table of a function, put together one by one from the inputs with output one. -/
def tabulate (arity : Nat) (f : Nat → Bool) : Except Error TruthTable := do
  checkArity arity
  let inputs := (List.range (2 ^ arity)).filter f
  if arity ≤ 6 then ofWord arity (inputs.foldl (fun w x => w ||| Word.single x) 0)
  else (LargeTable.ofPacked arity (inputs.foldl (fun v x => Bits.put v x true) 0)).map large

def constant (arity : Nat) (b : Bool) : Except Error TruthTable := do
  checkArity arity
  ofPacked arity (if b then 2 ^ (2 ^ arity : Nat) - 1 else 0)

end TruthTable

end Keystream
