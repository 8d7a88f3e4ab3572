import Keystream.Expr.Basic
import Keystream.Proofs.ParitySum

/-!
# Polynomials as linear functionals

Summing any bit `φ m` over the monomials of a polynomial turns toggling into adding `φ m`, sums into
sums, and products into double sums over joined monomials. Values and coefficients are two such
sums; the coefficients determine the polynomial.
-/

namespace Keystream

theorem Word.lt_of_bit {n : Nat} {w : UInt64} (hw : w.toNat < 2 ^ n) {i : Nat}
    (hi : bit w i = true) : i < n :=
  Bits.lt_of_testBit hw hi

namespace Monomial

theorem holdsAt_iff {m : Monomial} {input : UInt64} :
    m.holdsAt input = true ↔ ∀ i, Word.bit m i = true → Word.bit input i = true := by
  unfold holdsAt
  rw [beq_iff_eq]
  constructor
  · intro h i hi
    rw [← h, Word.bit_and, Bool.and_eq_true] at hi
    exact hi.1
  · intro h
    apply Word.ext_bit
    intro i _
    rw [Word.bit_and]
    cases hm : Word.bit m i with
    | false => rw [Bool.and_false]
    | true => rw [h i hm, Bool.and_true]

theorem holdsAt_or (m r : Monomial) (input : UInt64) :
    holdsAt (m ||| r) input = (m.holdsAt input && r.holdsAt input) := by
  rw [Bool.eq_iff_iff, Bool.and_eq_true]
  simp only [holdsAt_iff, Word.bit_or, Bool.or_eq_true]
  constructor
  · intro h
    exact ⟨fun i hi => h i (.inl hi), fun i hi => h i (.inr hi)⟩
  · rintro ⟨hm, hr⟩ i (hi | hi)
    · exact hm i hi
    · exact hr i hi

theorem holdsAt_zero (input : UInt64) : holdsAt 0 input = true := by
  rw [holdsAt_iff]
  intro i hi
  rw [Word.bit_zero] at hi
  exact absurd hi Bool.false_ne_true

theorem holdsAt_ofVariable {i : Nat} (hi : i < 64) (input : UInt64) :
    holdsAt (.ofVariable i) input = Word.bit input i := by
  rw [Bool.eq_iff_iff, holdsAt_iff]
  simp only [ofVariable, Word.bit_single hi, decide_eq_true_eq]
  constructor
  · intro h
    exact h i rfl
  · rintro h j rfl
    exact h

/-- Variables from `n` on do not matter to a monomial in the first `n`. -/
theorem holdsAt_low {n : Nat} {m : Monomial} (hm : m.toNat < 2 ^ n) (input : UInt64) :
    m.holdsAt (Word.low n input) = m.holdsAt input := by
  rw [Bool.eq_iff_iff, holdsAt_iff, holdsAt_iff]
  apply forall_congr'
  intro i
  apply imp_congr_right
  intro hi
  rw [Word.bit_low, decide_eq_true (Word.lt_of_bit hm hi), Bool.true_and]

theorem paritySum_toggleIn (m : Monomial) (l : List Monomial) (φ : Monomial → Bool) :
    paritySum (toggleIn m l) φ = (φ m ^^ paritySum l φ) := by
  induction l with
  | nil => rfl
  | cons a l ih =>
    rw [toggleIn]
    split
    · rfl
    · split
      · next h => rw [h, paritySum_cons, ← Bool.xor_assoc, Bool.xor_self, Bool.false_xor]
      · rw [paritySum_cons, ih, paritySum_cons, Bool.xor_left_comm]

end Monomial

namespace Polynomial

theorem paritySum_toggle (m : Monomial) (p : Polynomial) (φ : Monomial → Bool) :
    paritySum (p.toggle m).monomials φ = (φ m ^^ paritySum p.monomials φ) :=
  Monomial.paritySum_toggleIn m p.monomials φ

theorem paritySum_foldr_toggle (ms : List Monomial) (q : Polynomial) (φ : Monomial → Bool) :
    paritySum (ms.foldr toggle q).monomials φ = (paritySum ms φ ^^ paritySum q.monomials φ) := by
  induction ms with
  | nil => exact (Bool.false_xor _).symm
  | cons m ms ih => rw [List.foldr_cons, paritySum_toggle, ih, paritySum_cons, Bool.xor_assoc]

theorem paritySum_ofMonomials (ms : List Monomial) (φ : Monomial → Bool) :
    paritySum (ofMonomials ms).monomials φ = paritySum ms φ :=
  (paritySum_foldr_toggle ms 0 φ).trans (Bool.xor_false _)

theorem paritySum_add (p q : Polynomial) (φ : Monomial → Bool) :
    paritySum (p + q).monomials φ = (paritySum p.monomials φ ^^ paritySum q.monomials φ) :=
  paritySum_foldr_toggle p.monomials q φ

theorem paritySum_addMultiple (m : Monomial) (p q : Polynomial) (φ : Monomial → Bool) :
    paritySum (addMultiple m p q).monomials φ =
      (paritySum p.monomials (fun r => φ (m ||| r)) ^^ paritySum q.monomials φ) := by
  unfold addMultiple
  induction p.monomials with
  | nil => exact (Bool.false_xor _).symm
  | cons r rs ih => rw [List.foldr_cons, paritySum_toggle, ih, paritySum_cons, Bool.xor_assoc]

theorem paritySum_mul (p q : Polynomial) (φ : Monomial → Bool) :
    paritySum (p * q).monomials φ =
      paritySum p.monomials fun m => paritySum q.monomials fun r => φ (m ||| r) := by
  change paritySum (p.monomials.foldr (fun m s => addMultiple m q s) 0).monomials φ = _
  induction p.monomials with
  | nil => rfl
  | cons m ms ih => rw [List.foldr_cons, paritySum_addMultiple, ih, paritySum_cons]

theorem eval_eq_paritySum (p : Polynomial) (input : UInt64) :
    p.eval input = paritySum p.monomials (Monomial.holdsAt · input) :=
  (paritySum_eq_countP _ _).symm

@[simp] theorem eval_zero (input : UInt64) : eval 0 input = false := rfl

@[simp] theorem eval_one (input : UInt64) : eval 1 input = true := by
  rw [eval_eq_paritySum]
  change (Monomial.holdsAt 0 input ^^ false) = true
  rw [Monomial.holdsAt_zero, Bool.xor_false]

theorem eval_ofVariable {i : Nat} (hi : i < 64) (input : UInt64) :
    (ofMonomials [.ofVariable i]).eval input = Word.bit input i := by
  rw [eval_eq_paritySum, paritySum_ofMonomials, paritySum_cons, Monomial.holdsAt_ofVariable hi]
  exact Bool.xor_false _

theorem eval_add (p q : Polynomial) (input : UInt64) :
    (p + q).eval input = (p.eval input ^^ q.eval input) := by
  simp only [eval_eq_paritySum, paritySum_add]

theorem eval_mul (p q : Polynomial) (input : UInt64) :
    (p * q).eval input = (p.eval input && q.eval input) := by
  simp only [eval_eq_paritySum, paritySum_mul, Monomial.holdsAt_or, paritySum_and_left,
    paritySum_and_right]

theorem Within.eval_low {n : Nat} {p : Polynomial} (hp : p.Within n) (input : UInt64) :
    p.eval (Word.low n input) = p.eval input := by
  rw [eval_eq_paritySum, eval_eq_paritySum]
  exact paritySum_congr fun m hm => Monomial.holdsAt_low (hp m hm) input

theorem nodup_monomials (p : Polynomial) : p.monomials.Nodup := by
  apply p.increasing.imp
  intro m r hlt he
  rw [he, UInt64.lt_iff_toNat_lt] at hlt
  exact Nat.lt_irrefl _ hlt

theorem ext_mem {p q : Polynomial} (h : ∀ m, m ∈ p.monomials ↔ m ∈ q.monomials) : p = q := by
  have hperm : p.monomials.Perm q.monomials := by
    rw [List.perm_ext_iff_of_nodup p.nodup_monomials q.nodup_monomials]
    exact h
  have hl : p.monomials = q.monomials := by
    apply hperm.eq_of_pairwise _ p.increasing q.increasing
    intro a b _ _ hab hba
    exact absurd (UInt64.lt_trans hab hba) (UInt64.lt_irrefl a)
  obtain ⟨ms, hms⟩ := p
  cases hl
  rfl

/-- Whether a monomial is there is the sum of the entries equal to it. -/
theorem mem_iff_paritySum {p : Polynomial} {m : Monomial} :
    m ∈ p.monomials ↔ paritySum p.monomials (fun r => decide (r = m)) = true := by
  rw [paritySum_eq_mem p.nodup_monomials, decide_eq_true_iff]

theorem ext_paritySum {p q : Polynomial}
    (h : ∀ φ, paritySum p.monomials φ = paritySum q.monomials φ) : p = q := by
  apply ext_mem
  intro m
  rw [mem_iff_paritySum, mem_iff_paritySum, h]

end Polynomial

/-- Multiplying an expression out keeps its value. -/
theorem Expr.eval_polynomial {n : Nat} (hn : n ≤ 64) (input : UInt64) {l : Level} (e : Expr n l) :
    e.polynomial.eval input = e.eval input := by
  induction e with
  | const b =>
    cases b with
    | false => exact Polynomial.eval_zero input
    | true => exact Polynomial.eval_one input
  | var i => exact Polynomial.eval_ofVariable (Nat.lt_of_lt_of_le i.isLt hn) input
  | group e ih => exact ih
  | single f ih => exact ih
  | mul p f ihp ihf => rw [polynomial, Polynomial.eval_mul, ihp, ihf, eval]
  | term p ih => exact ih
  | add s p ihs ihp => rw [polynomial, Polynomial.eval_add, ihs, ihp, eval]

end Keystream
