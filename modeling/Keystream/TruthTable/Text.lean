import Keystream.TruthTable.Basic

/-!
# Truth tables in hexadecimal

A table is written as a fixed number of digits, four outputs to a digit and the highest inputs
first. Reading takes the number of variables from the length of the text, which is a power of two
and at least one digit, so two variables are the fewest that can be read.
-/

namespace Keystream.TruthTable

def hexLength (t : TruthTable) : Nat :=
  (2 ^ t.arity + 3) / 4

/-- All digits of the table, however many; the width of a text is taken to be unbounded. -/
def hex (t : TruthTable) : String :=
  String.ofList (Hex.fixed t.hexLength t.packed)

/-- Reads a table; the length in bytes is checked before the digits, of which a given reader of
numbers makes the packed outputs. -/
def ofHexBy (read : List Char → Option Nat) (s : String) : Except Error TruthTable :=
  let size := s.utf8ByteSize
  if size = 2 ^ size.log2 then
    match read s.toList with
    | some packed => ofPacked (size.log2 + 2) packed
    | none => .error .invalidHex
  else .error .wrongHexLength

def ofHex (s : String) : Except Error TruthTable :=
  ofHexBy Hex.read? s

end Keystream.TruthTable
