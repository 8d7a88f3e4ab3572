import Keystream.Polynomial

/-!
# Expressions over two elements

A sum has one or more terms, a term one or more factors, and a factor is a constant, one of `n`
variables, or a sum in parentheses. `Expr.eval` gives the value at an input and `Expr.polynomial`
multiplies the expression out.
-/

namespace Keystream

inductive Level where
  | sum
  | product
  | factor

inductive Expr (n : Nat) : Level → Type where
  | const (b : Bool) : Expr n .factor
  | var (i : Fin n) : Expr n .factor
  | group (e : Expr n .sum) : Expr n .factor
  | single (f : Expr n .factor) : Expr n .product
  | mul (p : Expr n .product) (f : Expr n .factor) : Expr n .product
  | term (p : Expr n .product) : Expr n .sum
  | add (s : Expr n .sum) (p : Expr n .product) : Expr n .sum

namespace Expr

variable {n : Nat}

/-- The value at the input whose bit `i` is variable `i`. -/
def eval (input : UInt64) {l : Level} : Expr n l → Bool
  | const b => b
  | var i => Word.bit input i
  | group e => e.eval input
  | single f => f.eval input
  | mul p f => p.eval input && f.eval input
  | term p => p.eval input
  | add s p => s.eval input ^^ p.eval input

def polynomial {l : Level} : Expr n l → Polynomial
  | const b => if b then 1 else 0
  | var i => .ofMonomials [.ofVariable i]
  | group e => e.polynomial
  | single f => f.polynomial
  | mul p f => p.polynomial * f.polynomial
  | term p => p.polynomial
  | add s p => s.polynomial + p.polynomial

theorem within_polynomial (hn : n ≤ 64) {l : Level} (e : Expr n l) : e.polynomial.Within n := by
  induction e with
  | const b =>
    cases b with
    | false => exact Polynomial.within_zero n
    | true => exact Polynomial.within_one n
  | var i => exact Polynomial.within_ofVariable hn i.isLt
  | group e ih => exact ih
  | single f ih => exact ih
  | mul p f ihp ihf => exact ihp.mul ihf
  | term p ih => exact ih
  | add s p ihs ihp => exact ihs.add ihp

end Expr

end Keystream
