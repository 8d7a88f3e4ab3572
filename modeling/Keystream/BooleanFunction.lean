import Keystream.NormalForm.Table
import Keystream.NormalForm.Text

/-!
# Boolean functions

A function is given by its normal form or by its truth table, and keeps the other view once it has
been asked for. A question that may derive a view answers together with the function that keeps it.
-/

namespace Keystream

inductive BooleanFunction where
  | sparse (form : NormalForm) (table : Option TruthTable)
    (table_eq : ∀ t, table = some t → form.table = .ok t)
  | dense (table : TruthTable) (form : Option NormalForm)
    (form_eq : ∀ f, form = some f → table.normalForm = f)

namespace BooleanFunction

def ofForm (f : NormalForm) : BooleanFunction :=
  sparse f none nofun

def ofTable (t : TruthTable) : BooleanFunction :=
  dense t none nofun

def parse (arity : Nat) (numbering : Numbering) (s : String) : Except Error BooleanFunction :=
  (NormalForm.parse arity numbering s).map ofForm

def arity : BooleanFunction → Nat
  | sparse form _ _ => form.arity
  | dense table _ _ => table.arity

/-- The value at an input below `2 ^ arity`, looked up if there is a table. -/
def value (f : BooleanFunction) (input : UInt64) : Bool :=
  match f with
  | sparse _ (some table) _ => table.lookup input.toNat
  | sparse form none _ => form.eval input
  | dense table _ _ => table.lookup input.toNat

/-- The value at a vector of one bit per variable. -/
def eval (f : BooleanFunction) (input : BitVector) : Except Error Bool :=
  if input.length = f.arity then .ok (f.value input.lowWord)
  else .error (.lengthMismatch f.arity input.length)

/-- The value at the low bits of a word. -/
def evalWord (f : BooleanFunction) (input : UInt64) : Bool :=
  f.value (Word.low f.arity input)

/-- The normal form, and the function that keeps it. -/
def normalForm : BooleanFunction → NormalForm × BooleanFunction
  | sparse form table h => (form, sparse form table h)
  | dense table (some form) h => (form, dense table (some form) h)
  | dense table none _ =>
    let form := table.normalForm
    (form, dense table (some form) fun _ h => Option.some.inj h)

/-- The truth table, if there are few enough variables, and the function that keeps it. -/
def truthTable : BooleanFunction → Except Error TruthTable × BooleanFunction
  | dense table form h => (.ok table, dense table form h)
  | sparse form (some table) h => (.ok table, sparse form (some table) h)
  | sparse form none h =>
    match ht : form.table with
    | .error e => (.error e, sparse form none h)
    | .ok table => (.ok table, sparse form (some table) fun _ h => Option.some.inj h ▸ ht)

def equal (f g : BooleanFunction) : Bool × BooleanFunction × BooleanFunction :=
  if f.arity = g.arity then
    let (a, f) := f.normalForm
    let (b, g) := g.normalForm
    (a = b, f, g)
  else (false, f, g)

/-- The normal form as text, variables numbered from 0. -/
def text (f : BooleanFunction) : String × BooleanFunction :=
  let (form, f) := f.normalForm
  (form.text .fromZero, f)

end BooleanFunction

end Keystream
