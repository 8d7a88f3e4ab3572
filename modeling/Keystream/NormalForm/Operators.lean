import Keystream.NormalForm.Basic

/-!
# Operators on normal forms

A sum and a product are written with two signs each. Every operator also works in place: monomials
are toggled one after another, and the first operand is then replaced by the result. It stays as it
was where the numbers of variables differ.
-/

namespace Keystream

namespace Polynomial

/-- Toggles the monomials of `q` in `p`, in increasing order. -/
def addInPlace (p q : Polynomial) : Polynomial :=
  q.monomials.foldl (fun s m => s.toggle m) p

/-- Toggles the joined monomials of all pairs, those with the first monomial of `p` first. -/
def mulInPlace (p q : Polynomial) : Polynomial :=
  p.monomials.foldl (fun s m => q.monomials.foldl (fun s r => s.toggle (m ||| r)) s) 0

theorem Within.addInPlace {n : Nat} {p q : Polynomial} (hp : p.Within n) (hq : q.Within n) :
    (p.addInPlace q).Within n := by
  apply List.foldlRecOn q.monomials _ hp
  intro s hs m hm
  exact hs.toggle (hq m hm)

theorem Within.mulInPlace {n : Nat} {p q : Polynomial} (hp : p.Within n) (hq : q.Within n) :
    (p.mulInPlace q).Within n := by
  apply List.foldlRecOn p.monomials _ (within_zero n)
  intro s hs m hm
  apply List.foldlRecOn q.monomials _ hs
  intro s hs r hr
  apply hs.toggle
  rw [UInt64.toNat_or]
  exact Nat.or_lt_two_pow (hp m hm) (hq r hr)

end Polynomial

namespace NormalForm

def addInPlace (f g : NormalForm) : Except Error Unit × NormalForm :=
  if h : g.arity = f.arity then
    (.ok (), ⟨f.arity, f.polynomial.addInPlace g.polynomial, f.arity_range,
      f.within.addInPlace (h ▸ g.within)⟩)
  else (.error .sumArityMismatch, f)

def mulInPlace (f g : NormalForm) : Except Error Unit × NormalForm :=
  if h : g.arity = f.arity then
    (.ok (), ⟨f.arity, f.polynomial.mulInPlace g.polynomial, f.arity_range,
      f.within.mulInPlace (h ▸ g.within)⟩)
  else (.error .productArityMismatch, f)

/-- The signs of sums and of products. -/
inductive Operator where
  | xor
  | add
  | and
  | mul
  deriving DecidableEq

namespace Operator

def apply : Operator → NormalForm → NormalForm → Except Error NormalForm
  | xor | add => sum
  | and | mul => product

/-- The operator in place: whether it could be applied, and the first operand after it. -/
def assign : Operator → NormalForm → NormalForm → Except Error Unit × NormalForm
  | xor | add => addInPlace
  | and | mul => mulInPlace

end Operator

end NormalForm

end Keystream
