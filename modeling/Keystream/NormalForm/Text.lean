import Keystream.Expr.Parser
import Keystream.NormalForm.Basic

/-!
# Normal forms as text

A normal form is written as the sum of its monomials, those of higher degree first and those of one
degree in increasing order. What is read may be any expression.
-/

namespace Keystream

/-- The product of the variables, or the constant one. -/
def Monomial.text (numbering : Numbering) (m : Monomial) : String :=
  if m = 0 then "1"
  else " ".intercalate ((Monomial.support m).map fun i => s!"x{numbering.first + i}")

namespace NormalForm

def writtenMonomials (f : NormalForm) : List Monomial :=
  f.polynomial.monomials.mergeSort fun m r => Monomial.degree r ≤ Monomial.degree m

def text (numbering : Numbering) (f : NormalForm) : String :=
  if f.polynomial = 0 then "0"
  else " + ".intercalate (f.writtenMonomials.map (Monomial.text numbering))

/-- The normal form of the expression; the number of variables is checked before the text. -/
def parse (arity : Nat) (numbering : Numbering) (s : String) : Except Error NormalForm :=
  build arity fun h =>
    match Expr.parse arity numbering s with
    | .error e => .error (.parse e)
    | .ok e => .ok ⟨e.polynomial, e.within_polynomial (Nat.le_succ_of_le h)⟩

end NormalForm

end Keystream
