import Keystream.Proofs.Checked.Functions
import Keystream.Proofs.Checked.Registers

/-!
# Programs without faults

A program calls one operation after another; what it calls next, and with which arguments, may depend
on all results so far, errors included. Operations that only give back what an object keeps are part
of the program itself. Run with checks, a program meets no fault and ends as it does without them,
unless it does what the documentation warns of: it looks up an input from 64 on in a small table
without any test, or applies an operator to normal forms in different numbers of variables.
-/

namespace Keystream

open Checked

variable {α β : Type}

namespace BitVector

inductive Op : Type → Type where
  | zeros (length : Nat) : Op BitVector
  | ofNumbers (values : List Nat) : Op BitVector
  | ofWord (length : Nat) (w : UInt64) : Op BitVector
  | ofNat (length v : Nat) : Op BitVector
  | get (x : BitVector) (i : Nat) : Op Bool
  | set (x : BitVector) (i value : Nat) : Op BitVector
  | toList (x : BitVector) : Op (List Bool)
  | text (x : BitVector) : Op String

namespace Op

def run : Op β → Except Error β
  | zeros length => .ok (.zeros length)
  | ofNumbers values => BitVector.ofNumbers values
  | ofWord length w => .ok (.ofWord length w)
  | ofNat length v => .ok (.ofNat length v)
  | get x i => x.get i
  | set x i value => x.set i value
  | toList x => .ok x.toList
  | text x => .ok x.text

def check : Op β → Checked β
  | zeros length => checkedZeros length
  | ofNumbers values => checkedOfNumbers values
  | ofWord length w => checkedOfWord length w
  | ofNat length v => checkedOfNat length v
  | get x i => x.checkedGet i
  | set x i value => x.checkedSet i value
  | toList x => x.checkedList
  | text x => x.checkedText

theorem check_eq (op : Op β) : op.check = faultless op.run := by
  cases op with
  | zeros length => exact checkedZeros_eq length
  | ofNumbers values => exact checkedOfNumbers_eq values
  | ofWord length w => exact checkedOfWord_eq length w
  | ofNat length v => exact checkedOfNat_eq length v
  | get x i => exact x.checkedGet_eq i
  | set x i value => exact x.checkedSet_eq i value
  | toList x => exact x.checkedList_eq
  | text x => exact x.checkedText_eq

end Op

end BitVector

namespace ShiftRegister

inductive Op : Type → Type where
  | blank (length : Nat) : Op ShiftRegister
  | ofVectors (taps fill : BitVector) : Op ShiftRegister
  | apply (s : Setting) (p : Part) (r : ShiftRegister) : Op ShiftRegister
  | get (r : ShiftRegister) (p : Part) (i : Nat) : Op Bool
  | call (c : Call) (r : ShiftRegister) : Op (List Bool × ShiftRegister)

namespace Op

def run : Op β → Except Error β
  | blank length => ShiftRegister.blank length
  | ofVectors taps fill => ShiftRegister.ofVectors taps fill
  | apply s p r => s.apply p r
  | get r p i => (r.part p).get i
  | call c r => .ok (c.perform r)

def check : Op β → Checked β
  | blank length => checkedBlank length
  | ofVectors taps fill => checkedOfVectors taps fill
  | apply s p r => s.checkedApply p r
  | get r p i => (r.part p).checkedGet i
  | call c r => c.checkedPerform r

theorem check_eq (op : Op β) : op.check = faultless op.run := by
  cases op with
  | blank length => exact checkedBlank_eq length
  | ofVectors taps fill => exact checkedOfVectors_eq taps fill
  | apply s p r => exact s.checkedApply_eq p r
  | get r p i => exact (r.part p).checkedGet_eq i
  | call c r => exact c.checkedPerform_eq r

end Op

end ShiftRegister

namespace TruthTable

/-- An operation on a table or on a cursor. A large table may have any number of variables, and
`lookup` tests nothing. -/
inductive Op : Type → Type where
  | build (s : Source) : Op TruthTable
  | large (arity outputs : Nat) : Op TruthTable
  | maxInput (t : TruthTable) : Op Nat
  | output (t : TruthTable) (input : Nat) : Op Bool
  | outputOf (t : TruthTable) (input : BitVector) : Op Bool
  | lookup (t : TruthTable) (input : Nat) : Op Bool
  | hex (t : TruthTable) : Op String
  | start (t : TruthTable) : Op Cursor
  | remaining (c : Cursor) : Op Nat
  | next (c : Cursor) : Op (Option Bool × Cursor)
  | nth (c : Cursor) (k : Nat) : Op (Option Bool × Cursor)

namespace Op

def run : Op β → Except Error β
  | build s => s.build
  | large arity outputs => (LargeTable.ofPacked arity outputs).map TruthTable.large
  | maxInput t => .ok t.maxInput
  | output t input => t.output input
  | outputOf t input => t.outputOf input
  | lookup t input => .ok (t.lookup input)
  | hex t => .ok t.hex
  | start t => .ok t.start
  | remaining c => .ok c.remaining
  | next c => .ok c.next
  | nth c k => .ok (c.nth k)

def check : Op β → Checked β
  | build s => s.checkedBuild
  | large arity outputs => checkedLarge arity outputs
  | maxInput t => t.checkedMaxInput
  | output t input => t.checkedOutput input
  | outputOf t input => t.checkedOutputOf input
  | lookup t input => t.checkedLookup input
  | hex t => t.checkedHex
  | start t => Cursor.checkedStart t
  | remaining c => c.checkedRemaining
  | next c => c.checkedNext
  | nth c k => c.checkedNth k

/-- The fault that the documentation warns of. -/
def documented : Op β → Option Fault
  | lookup t input => if t.isSmall = true ∧ 64 ≤ input then some .shiftTooFar else none
  | _ => none

theorem check_eq (op : Op β) :
    op.check = op.documented.elim (faultless op.run) fault := by
  cases op with
  | build s => exact s.checkedBuild_eq
  | large arity outputs => exact checkedLarge_eq arity outputs
  | maxInput t => exact t.checkedMaxInput_eq
  | output t input => exact t.checkedOutput_eq input
  | outputOf t input => exact t.checkedOutputOf_eq input
  | lookup t input =>
    rw [check, checkedLookup_eq, documented]
    split <;> rfl
  | hex t => exact t.checkedHex_eq
  | start t => exact Cursor.checkedStart_eq t
  | remaining c => exact c.checkedRemaining_eq
  | next c => exact c.checkedNext_eq
  | nth c k => exact c.checkedNth_eq k

end Op

end TruthTable

namespace NormalForm

inductive Op : Type → Type where
  | zero (arity : Nat) : Op NormalForm
  | one (arity : Nat) : Op NormalForm
  | ofVariable (arity i : Nat) : Op NormalForm
  | ofMonomials (arity : Nat) (ms : List Monomial) : Op NormalForm
  | parse (arity : Nat) (numbering : Numbering) (s : String) : Op NormalForm
  | ofTable (t : TruthTable) : Op NormalForm
  | apply (op : Operator) (f g : NormalForm) : Op NormalForm
  | assign (op : Operator) (f g : NormalForm) : Op NormalForm
  | text (numbering : Numbering) (f : NormalForm) : Op String

namespace Op

def run : Op β → Except Error β
  | zero arity => NormalForm.zero arity
  | one arity => NormalForm.one arity
  | ofVariable arity i => NormalForm.ofVariable arity i
  | ofMonomials arity ms => NormalForm.ofMonomials arity ms
  | parse arity numbering s => NormalForm.parse arity numbering s
  | ofTable t => .ok t.normalForm
  | apply op f g => op.apply f g
  | assign op f g => (op.assign f g).1.map fun _ => (op.assign f g).2
  | text numbering f => .ok (f.text numbering)

def check (transform : Nat → UInt64 → UInt64) : Op β → Checked β
  | zero arity => Terms.zero arity >>= assemble
  | one arity => Terms.one arity >>= assemble
  | ofVariable arity i => Terms.ofVariable arity i >>= assemble
  | ofMonomials arity ms => Terms.ofMonomials arity ms >>= assemble
  | parse arity numbering s => Terms.parse arity numbering s >>= assemble
  | ofTable t => Terms.ofTable transform t >>= assemble
  | apply op f g => op.checkedApply f.terms g.terms >>= assemble
  | assign op f g => do
    let (done, t) := op.checkedAssign f.terms g.terms
    done
    assemble t
  | text numbering f => f.terms.checkedText numbering

/-- The fault that the documentation warns of. -/
def documented : Op β → Option Fault
  | apply op f g | assign op f g =>
    if g.arity = f.arity then none else some (.arityMismatch op.mismatch)
  | _ => none

theorem assemble_of_eq {t : Checked Terms} {result : Except Error NormalForm}
    (h : t = faultless (result.map terms)) : t >>= assemble = faultless result := by
  subst h
  cases result with
  | error e => rfl
  | ok f => exact assemble_terms f

theorem check_eq {transform : Nat → UInt64 → UInt64}
    (htransform : Moebius.TransformsWords transform) (op : Op β) :
    op.check transform = op.documented.elim (faultless op.run) fault := by
  cases op with
  | zero arity => exact assemble_of_eq (Terms.zero_eq arity)
  | one arity => exact assemble_of_eq (Terms.one_eq arity)
  | ofVariable arity i => exact assemble_of_eq (Terms.ofVariable_eq arity i)
  | ofMonomials arity ms => exact assemble_of_eq (Terms.ofMonomials_eq arity ms)
  | parse arity numbering s => exact assemble_of_eq (Terms.parse_eq numbering arity s)
  | ofTable t =>
    rw [check, Terms.ofTable_eq, t.normalFormBy_eq_normalForm htransform]
    exact assemble_terms t.normalForm
  | apply op f g =>
    rw [check, documented]
    by_cases h : g.arity = f.arity
    · rw [if_pos h]
      exact assemble_of_eq (op.checkedApply_of_eq h)
    · rw [if_neg h, op.checkedApply_of_ne h]
      rfl
  | assign op f g =>
    rw [check, documented]
    by_cases h : g.arity = f.arity
    · obtain ⟨s, hs, hassign⟩ := op.checkedAssign_of_eq h
      rw [if_pos h, hassign, run, op.assign_eq, hs]
      exact assemble_terms s
    · rw [if_neg h, (op.checkedAssign_of_ne h).2]
      rfl
  | text numbering f => exact Terms.checkedText_eq numbering f

end Op

end NormalForm

namespace BooleanFunction

inductive Op : Type → Type where
  | parse (arity : Nat) (numbering : Numbering) (s : String) : Op BooleanFunction
  | eval (f : BooleanFunction) (input : BitVector) : Op Bool
  | evalWord (f : BooleanFunction) (input : UInt64) : Op Bool
  | normalForm (f : BooleanFunction) : Op (NormalForm × BooleanFunction)
  | truthTable (f : BooleanFunction) : Op (Except Error TruthTable × BooleanFunction)
  | equal (f g : BooleanFunction) : Op (Bool × BooleanFunction × BooleanFunction)
  | text (f : BooleanFunction) : Op (String × BooleanFunction)

namespace Op

def run : Op β → Except Error β
  | parse arity numbering s => BooleanFunction.parse arity numbering s
  | eval f input => f.eval input
  | evalWord f input => .ok (f.evalWord input)
  | normalForm f => .ok f.normalForm
  | truthTable f => .ok f.truthTable
  | equal f g => .ok (f.equal g)
  | text f => .ok f.text

def check (transform : Nat → UInt64 → UInt64) : Op β → Checked β
  | parse arity numbering s => do
    return ofForm (← Terms.parse arity numbering s >>= NormalForm.assemble)
  | eval f input => f.checkedEval input
  | evalWord f input => f.checkedEvalWord input
  | normalForm f => f.checkedNormalForm transform
  | truthTable f => f.checkedTruthTable
  | equal f g => f.checkedEqual transform g
  | text f => f.checkedText transform

theorem check_eq {transform : Nat → UInt64 → UInt64}
    (htransform : Moebius.TransformsWords transform) (op : Op β) :
    op.check transform = faultless op.run := by
  cases op with
  | parse arity numbering s =>
    rw [check, run, BooleanFunction.parse, faultless_map,
      NormalForm.Op.assemble_of_eq (Terms.parse_eq numbering arity s)]
    rfl
  | eval f input => exact f.checkedEval_eq input
  | evalWord f input => exact f.checkedEvalWord_eq input
  | normalForm f => exact checkedNormalForm_eq htransform f
  | truthTable f => exact f.checkedTruthTable_eq
  | equal f g => exact checkedEqual_eq htransform f g
  | text f => exact checkedText_eq htransform f

end Op

end BooleanFunction

inductive Operation (β : Type) where
  | vector (op : BitVector.Op β)
  | register (op : ShiftRegister.Op β)
  | table (op : TruthTable.Op β)
  | form (op : NormalForm.Op β)
  | function (op : BooleanFunction.Op β)

namespace Operation

def run : Operation β → Except Error β
  | vector op => op.run
  | register op => op.run
  | table op => op.run
  | form op => op.run
  | function op => op.run

def check (transform : Nat → UInt64 → UInt64) : Operation β → Checked β
  | vector op => op.check
  | register op => op.check
  | table op => op.check
  | form op => op.check transform
  | function op => op.check transform

/-- The fault that the documentation warns of. -/
def documented : Operation β → Option Fault
  | table op => op.documented
  | form op => op.documented
  | _ => none

theorem check_eq {transform : Nat → UInt64 → UInt64}
    (htransform : Moebius.TransformsWords transform) (op : Operation β) :
    op.check transform = op.documented.elim (faultless op.run) fault := by
  cases op with
  | vector op => exact op.check_eq
  | register op => exact op.check_eq
  | table op => exact op.check_eq
  | form op => exact op.check_eq htransform
  | function op => exact op.check_eq htransform

end Operation

inductive Program (α : Type) : Type 1 where
  | done (a : α) : Program α
  | call {β : Type} (op : Operation β) (next : Except Error β → Program α) : Program α

namespace Program

def run : Program α → α
  | done a => a
  | call op next => (next op.run).run

/-- The run in which every operation is checked; a fault ends it. -/
def check (transform : Nat → UInt64 → UInt64) : Program α → Except Fault α
  | done a => .ok a
  | call op next => do (next (← (op.check transform).result)).check transform

/-- The first fault on the way that the documentation warns of. -/
def documented : Program α → Option Fault
  | done _ => none
  | call op next => op.documented <|> (next op.run).documented

theorem check_eq {transform : Nat → UInt64 → UInt64}
    (htransform : Moebius.TransformsWords transform) (p : Program α) :
    p.check transform = p.documented.elim (.ok p.run) .error := by
  induction p with
  | done a => rfl
  | call op next ih =>
    rw [check, op.check_eq htransform, documented, run]
    cases op.documented with
    | some f => rfl
    | none =>
      change ((faultless op.run).result >>= fun _ => _) = _
      rw [result_faultless]
      exact ih op.run

/-- Checks change nothing in a program that does not do what is warned of, and any other one they end
at that place with that fault. So no shift is ever too long for its word, nothing falls below zero or
wraps, no entry is out of bounds, no inner product meets two storages, and functions and cursors look
up inputs of their table only, whatever is called with whichever arguments. Memory and
the width to which a text is padded are taken to be unbounded and are not checked: registers give out
as many bits as they are asked for, and a table is written with all its digits, whose number 16 bits
no longer hold from 18 variables on. -/
theorem faults_are_documented {transform : Nat → UInt64 → UInt64}
    (htransform : Moebius.TransformsWords transform) (p : Program α) :
    (p.documented = none → p.check transform = .ok p.run) ∧
      ∀ f, p.check transform = .error f ↔ p.documented = some f := by
  rw [p.check_eq htransform]
  cases p.documented with
  | none => exact ⟨fun _ => rfl, fun f => by simp⟩
  | some f => simp

/-- Looks up an output of a table of three variables without any test. -/
def lookupAt (input : Nat) : Program (Except Error Bool) :=
  call (.table (.build (.packed 3 0x27))) fun
    | .error e => done (.error e)
    | .ok t => call (.table (.lookup t input)) done

theorem faults_are_documented_example :
    Moebius.TransformsWords Moebius.transformWord ∧
      (lookupAt 63).documented = none ∧
      (lookupAt 63).check Moebius.transformWord = .ok (.ok false) ∧
      (lookupAt 64).documented = some .shiftTooFar ∧
      (lookupAt 64).check Moebius.transformWord = .error .shiftTooFar := by
  have htransform := Moebius.transformsWords_transformWord
  have hlast : (lookupAt 63).documented = none := rfl
  have hbehind : (lookupAt 64).documented = some .shiftTooFar := rfl
  obtain ⟨hruns, -⟩ := faults_are_documented htransform (lookupAt 63)
  obtain ⟨-, hstops⟩ := faults_are_documented htransform (lookupAt 64)
  exact ⟨htransform, hlast, hruns hlast, hbehind, (hstops _).2 hbehind⟩

end Program

end Keystream
