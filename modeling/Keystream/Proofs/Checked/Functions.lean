import Keystream.Proofs.Checked.Lookups
import Keystream.Proofs.Checked.Reading
import Keystream.Proofs.Views

/-!
# Boolean functions without faults

A value is looked up only at inputs of as many bits as there are variables, which an argument of
another length or higher bits cannot break. The table of a function has its number of variables, so
such an input lies inside the table. Small tables go through any transform of words.
-/

namespace Keystream.BooleanFunction

open Checked

/-- The value at an input that is known to have one bit per variable. -/
def checkedValue (f : BooleanFunction) (input : UInt64) : Checked Bool :=
  match f with
  | sparse _ (some table) _ => table.lookupWithin input.toNat
  | sparse form none _ => .ok (form.eval input)
  | dense table _ _ => table.lookupWithin input.toNat

theorem checkedValue_of_lt {f : BooleanFunction} {input : UInt64}
    (h : input.toNat < 2 ^ f.arity) : f.checkedValue input = .ok (f.value input) := by
  match f with
  | sparse form (some table) htable =>
    have ha := (NormalForm.lookup_of_table (htable table rfl)).1
    exact TruthTable.lookupWithin_of_lt (ha ▸ h)
  | sparse form none _ => rfl
  | dense table _ _ => exact TruthTable.lookupWithin_of_lt h

/-- The value at a vector of one bit per variable. -/
def checkedEval (f : BooleanFunction) (input : BitVector) : Checked Bool :=
  if input.length ≠ f.arity then fail (.lengthMismatch f.arity input.length)
  else f.checkedValue input.lowWord

theorem checkedEval_eq (f : BooleanFunction) (input : BitVector) :
    f.checkedEval input = faultless (f.eval input) := by
  rw [checkedEval, eval]
  by_cases h : input.length = f.arity
  · rw [if_neg (not_not.2 h), if_pos h, checkedValue_of_lt (h ▸ input.lowWord_lt), faultless_ok]
  · rw [if_pos h, if_neg h, faultless_error]

/-- The value at the low bits of a word. -/
def checkedEvalWord (f : BooleanFunction) (input : UInt64) : Checked Bool := do
  f.checkedValue (← BitVector.checkedOfWord f.arity input).lowWord

theorem checkedEvalWord_eq (f : BooleanFunction) (input : UInt64) :
    f.checkedEvalWord input = .ok (f.evalWord input) := by
  have hle : f.arity ≤ 64 := Nat.le_succ_of_le f.arity_le
  rw [checkedEvalWord, BitVector.checkedOfWord_eq, ok_bind, BitVector.lowWord_ofWord hle,
    checkedValue_of_lt (Word.toNat_low_lt f.arity input)]
  rfl

/-- The function of a table that keeps its normal form. -/
def keepForm (table : TruthTable) (form : NormalForm) : Checked BooleanFunction :=
  if h : table.normalForm = form then
    .ok (dense table (some form) fun _ hf => h.trans (Option.some.inj hf))
  else fault .malformed

theorem table_of_some {form : NormalForm} {table : TruthTable} (h : form.table = .ok table) :
    ∀ t, some table = some t → form.table = .ok t := by
  rintro t ⟨⟩
  exact h

/-- The function of a normal form that keeps its table. -/
def keepTable (form : NormalForm) (table : TruthTable) : Checked BooleanFunction :=
  if h : form.table = .ok table then
    .ok (sparse form (some table) (table_of_some h))
  else fault .malformed

/-- The normal form, and the function that keeps it. -/
def checkedNormalForm (transform : Nat → UInt64 → UInt64) :
    BooleanFunction → Checked (NormalForm × BooleanFunction)
  | dense table none _ => do
    let form ← NormalForm.assemble (← Terms.ofTable transform table)
    return (form, ← keepForm table form)
  | dense table (some form) h => .ok (form, dense table (some form) h)
  | sparse form table h => .ok (form, sparse form table h)

/-- The truth table, if there are few enough variables, and the function that keeps it. -/
def checkedTruthTable : BooleanFunction → Checked (Except Error TruthTable × BooleanFunction)
  | sparse form none h =>
    match (TruthTable.Source.form form).checkedBuild with
    | .error (.fault f) => fault f
    | .error (.error e) => .ok (.error e, sparse form none h)
    | .ok table => do
      return (.ok table, ← keepTable form table)
  | sparse form (some table) h => .ok (.ok table, sparse form (some table) h)
  | dense table form h => .ok (.ok table, dense table form h)

theorem truthTable_of_table_error {form : NormalForm} {e : Error} (he : form.table = .error e)
    (h : ∀ t, none = some t → form.table = .ok t) :
    (sparse form none h).truthTable = (.error e, sparse form none h) := by
  rw [truthTable]
  split
  · next d hd =>
    cases hd.symm.trans he
    rfl
  · next t ht => cases ht.symm.trans he

theorem truthTable_of_table_ok {form : NormalForm} {table : TruthTable}
    (ht : form.table = .ok table) (h : ∀ t, none = some t → form.table = .ok t) :
    (sparse form none h).truthTable =
      (.ok table, sparse form (some table) (table_of_some ht)) := by
  rw [truthTable]
  split
  · next e he => cases he.symm.trans ht
  · next t hu =>
    cases hu.symm.trans ht
    rfl

theorem checkedTruthTable_eq (f : BooleanFunction) : f.checkedTruthTable = .ok f.truthTable := by
  match f with
  | dense table form h => rfl
  | sparse form (some table) h => rfl
  | sparse form none h =>
    have hbuild : (TruthTable.Source.form form).checkedBuild = faultless form.table :=
      TruthTable.Source.checkedBuild_eq _
    rw [checkedTruthTable, hbuild]
    cases ht : form.table with
    | error e => rw [truthTable_of_table_error ht]; rfl
    | ok table =>
      rw [truthTable_of_table_ok ht]
      simp only [faultless_ok, keepTable, dif_pos ht, ok_bind, pure_eq]

section Transform

variable {transform : Nat → UInt64 → UInt64} (htransform : Moebius.TransformsWords transform)
include htransform

theorem checkedNormalForm_eq (f : BooleanFunction) :
    f.checkedNormalForm transform = .ok f.normalForm := by
  match f with
  | sparse form table h => rfl
  | dense table (some form) h => rfl
  | dense table none h =>
    have hform := table.normalFormBy_eq_normalForm htransform
    rw [checkedNormalForm, Terms.ofTable_eq, ok_bind, NormalForm.assemble_terms, ok_bind, hform,
      keepForm, dif_pos rfl]
    rfl

def checkedEqual (transform : Nat → UInt64 → UInt64) (f g : BooleanFunction) :
    Checked (Bool × BooleanFunction × BooleanFunction) :=
  if f.arity = g.arity then do
    let (a, f) ← f.checkedNormalForm transform
    let (b, g) ← g.checkedNormalForm transform
    return (a = b, f, g)
  else .ok (false, f, g)

theorem checkedEqual_eq (f g : BooleanFunction) :
    f.checkedEqual transform g = .ok (f.equal g) := by
  rw [checkedEqual, equal]
  split
  · rw [checkedNormalForm_eq htransform, ok_bind, checkedNormalForm_eq htransform]
    rfl
  · rfl

/-- The normal form as text, variables numbered from 0. -/
def checkedText (transform : Nat → UInt64 → UInt64) (f : BooleanFunction) :
    Checked (String × BooleanFunction) := do
  let (form, f) ← f.checkedNormalForm transform
  return (← form.terms.checkedText .fromZero, f)

theorem checkedText_eq (f : BooleanFunction) : f.checkedText transform = .ok f.text := by
  simp only [checkedText, checkedNormalForm_eq htransform, ok_bind, Terms.checkedText_eq, pure_eq]
  rfl

end Transform

end Keystream.BooleanFunction
