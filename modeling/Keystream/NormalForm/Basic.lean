import Keystream.Error
import Keystream.Polynomial

/-!
# Algebraic normal forms

The algebraic normal form of a Boolean function of 1 to 63 variables is a polynomial in those
variables. Sums and products are defined for functions of the same number of variables.
-/

namespace Keystream

structure NormalForm where
  arity : Nat
  polynomial : Polynomial
  arity_range : 0 < arity ∧ arity ≤ 63
  within : polynomial.Within arity
  deriving DecidableEq

namespace NormalForm

theorem arity_pos (f : NormalForm) : 0 < f.arity :=
  f.arity_range.1

theorem arity_le (f : NormalForm) : f.arity ≤ 63 :=
  f.arity_range.2

/-- The normal form of a polynomial that is only made once the number of variables is known to be in
range. -/
def build (arity : Nat) (p : arity ≤ 63 → Except Error {p : Polynomial // p.Within arity}) :
    Except Error NormalForm :=
  if h₀ : arity = 0 then .error .noVariables
  else if h₆₃ : 63 < arity then .error (.tooManyVariables 63)
  else
    match p (Nat.le_of_not_lt h₆₃) with
    | .error e => .error e
    | .ok p => .ok ⟨arity, p.1, ⟨Nat.pos_of_ne_zero h₀, Nat.le_of_not_lt h₆₃⟩, p.2⟩

def zero (arity : Nat) : Except Error NormalForm :=
  build arity fun _ => .ok ⟨0, Polynomial.within_zero arity⟩

def one (arity : Nat) : Except Error NormalForm :=
  build arity fun _ => .ok ⟨1, Polynomial.within_one arity⟩

/-- The sum of the monomials of a list; the first one with a variable too many is an error. -/
def ofMonomials (arity : Nat) (ms : List Monomial) : Except Error NormalForm :=
  build arity fun _ =>
    match hm : ms.find? (fun m => !Bits.fits arity m.toNat) with
    | some m => .error (.monomialOutOfRange m arity)
    | none => .ok ⟨.ofMonomials ms, Polynomial.within_ofMonomials fun m hmem =>
        Bits.fits_iff.1 (by simpa using List.find?_eq_none.1 hm m hmem)⟩

/-- Variable `i`, counted from 0, as a function of `arity` variables. -/
def ofVariable (arity i : Nat) : Except Error NormalForm :=
  build arity fun h =>
    if hi : i < arity then
      .ok ⟨.ofMonomials [.ofVariable i], Polynomial.within_ofVariable (Nat.le_succ_of_le h) hi⟩
    else .error (.indexOutOfRange i arity)

def eval (f : NormalForm) (input : UInt64) : Bool :=
  f.polynomial.eval input

def degree (f : NormalForm) : Nat :=
  f.polynomial.degree

def contains (f : NormalForm) (m : Monomial) : Bool :=
  f.polynomial.monomials.contains m

def sum (f g : NormalForm) : Except Error NormalForm :=
  if h : g.arity = f.arity then
    .ok ⟨f.arity, f.polynomial + g.polynomial, f.arity_range, f.within.add (h ▸ g.within)⟩
  else .error .sumArityMismatch

def product (f g : NormalForm) : Except Error NormalForm :=
  if h : g.arity = f.arity then
    .ok ⟨f.arity, f.polynomial * g.polynomial, f.arity_range, f.within.mul (h ▸ g.within)⟩
  else .error .productArityMismatch

end NormalForm

end Keystream
