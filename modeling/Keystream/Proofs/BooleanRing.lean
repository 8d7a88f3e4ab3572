import Mathlib.Algebra.BigOperators.Group.List.Basic
import Mathlib.Algebra.Ring.BooleanRing
import Keystream.Proofs.Canonical
import Keystream.Proofs.Operators

/-!
# Normal forms are a Boolean ring

A polynomial is determined by its values, so the laws of bits are laws of polynomials, and
polynomials are a Boolean ring. The normal forms of one number of variables are closed under its
operations; a sum or a product of several of them is that of their polynomials, in whatever order
and grouping the operators are applied.
-/

namespace Keystream

namespace Polynomial

theorem ext_eval {p q : Polynomial} (h : ∀ v, p.eval v = q.eval v) : p = q := by
  have within : ∀ r : Polynomial, r.Within 64 := fun _ m _ => m.toNat_lt
  exact (within p).ext_eval (Nat.le_refl 64) (within q) fun v _ => h v

theorem add_self (p : Polynomial) : p + p = 0 := by
  apply ext_eval
  intro v
  rw [eval_add, Bool.xor_self, eval_zero]

theorem mul_self (p : Polynomial) : p * p = p := by
  apply ext_eval
  intro v
  rw [eval_mul, Bool.and_self]

instance : Neg Polynomial := ⟨id⟩

instance : BooleanRing Polynomial where
  add_assoc p q r := ext_eval fun v => by simp only [eval_add, Bool.xor_assoc]
  zero_add p := ext_eval fun v => by rw [eval_add, eval_zero, Bool.false_xor]
  add_zero p := ext_eval fun v => by rw [eval_add, eval_zero, Bool.xor_false]
  add_comm p q := ext_eval fun v => by rw [eval_add, eval_add, Bool.xor_comm]
  left_distrib p q r := ext_eval fun v => by
    simp only [eval_add, eval_mul, Bool.and_xor_distrib_left]
  right_distrib p q r := ext_eval fun v => by
    simp only [eval_add, eval_mul, Bool.and_xor_distrib_right]
  zero_mul p := ext_eval fun v => by rw [eval_mul, eval_zero, Bool.false_and]
  mul_zero p := ext_eval fun v => by rw [eval_mul, eval_zero, Bool.and_false]
  mul_assoc p q r := ext_eval fun v => by simp only [eval_mul, Bool.and_assoc]
  one_mul p := ext_eval fun v => by rw [eval_mul, eval_one, Bool.true_and]
  mul_one p := ext_eval fun v => by rw [eval_mul, eval_one, Bool.and_true]
  neg_add_cancel := add_self
  isIdempotentElem := mul_self
  nsmul := nsmulRec
  zsmul := zsmulRec

end Polynomial

namespace NormalForm

theorem ext_polynomial {f g : NormalForm} (ha : f.arity = g.arity)
    (hp : f.polynomial = g.polynomial) : f = g := by
  obtain ⟨n, p, _, _⟩ := f
  obtain ⟨m, q, _, _⟩ := g
  obtain rfl : n = m := ha
  obtain rfl : p = q := hp
  rfl

namespace Operator

def onPolynomials : Operator → Polynomial → Polynomial → Polynomial
  | xor | add => (· + ·)
  | and | mul => (· * ·)

def total : Operator → List Polynomial → Polynomial
  | xor | add => List.sum
  | and | mul => List.prod

theorem total_singleton (op : Operator) (p : Polynomial) : op.total [p] = p := by
  cases op with
  | xor => exact List.sum_singleton
  | add => exact List.sum_singleton
  | and => exact List.prod_singleton
  | mul => exact List.prod_singleton

theorem total_append (op : Operator) (ps qs : List Polynomial) :
    op.total (ps ++ qs) = op.onPolynomials (op.total ps) (op.total qs) := by
  cases op with
  | xor => exact List.sum_append
  | add => exact List.sum_append
  | and => exact List.prod_append
  | mul => exact List.prod_append

theorem total_perm (op : Operator) {ps qs : List Polynomial} (h : ps.Perm qs) :
    op.total ps = op.total qs := by
  cases op with
  | xor => exact h.sum_eq
  | add => exact h.sum_eq
  | and => exact h.prod_eq
  | mul => exact h.prod_eq

theorem apply_eq (op : Operator) {f g : NormalForm} (h : g.arity = f.arity) :
    ∃ r, op.apply f g = .ok r ∧ r.arity = f.arity ∧
      r.polynomial = op.onPolynomials f.polynomial g.polynomial := by
  have hsum : ∃ r, f.sum g = .ok r ∧ r.arity = f.arity ∧
      r.polynomial = f.polynomial + g.polynomial := ⟨_, dif_pos h, rfl, rfl⟩
  have hproduct : ∃ r, f.product g = .ok r ∧ r.arity = f.arity ∧
      r.polynomial = f.polynomial * g.polynomial := ⟨_, dif_pos h, rfl, rfl⟩
  cases op with
  | xor => exact hsum
  | add => exact hsum
  | and => exact hproduct
  | mul => exact hproduct

/-- An operator gives whichever normal form has the polynomial it should. -/
theorem apply_eq_ok (op : Operator) {f g r : NormalForm} (h : g.arity = f.arity)
    (ha : r.arity = f.arity)
    (hp : r.polynomial = op.onPolynomials f.polynomial g.polynomial) : op.apply f g = .ok r := by
  obtain ⟨r', hr', ha', hp'⟩ := op.apply_eq h
  obtain rfl : r' = r := ext_polynomial (ha'.trans ha.symm) (hp'.trans hp.symm)
  exact hr'

end Operator

/-- An order and grouping of several normal forms. -/
inductive Grouping where
  | form (f : NormalForm)
  | join (s t : Grouping)

namespace Grouping

def forms : Grouping → List NormalForm
  | form f => [f]
  | join s t => s.forms ++ t.forms

/-- Applies an operator at every joint. -/
def combine (op : Operator) : Grouping → Except Error NormalForm
  | form f => .ok f
  | join s t => do op.apply (← s.combine op) (← t.combine op)

theorem combine_eq (op : Operator) {n : Nat} {t : Grouping} (ht : ∀ f ∈ t.forms, f.arity = n) :
    ∃ r, t.combine op = .ok r ∧ r.arity = n ∧
      r.polynomial = op.total (t.forms.map polynomial) := by
  induction t with
  | form f => exact ⟨f, rfl, ht f List.mem_cons_self, (op.total_singleton f.polynomial).symm⟩
  | join s t ihs iht =>
    obtain ⟨f, hf, hfa, hfp⟩ := ihs fun f hf => ht f (List.mem_append_left _ hf)
    obtain ⟨g, hg, hga, hgp⟩ := iht fun f hf => ht f (List.mem_append_right _ hf)
    obtain ⟨r, hr, hra, hrp⟩ := op.apply_eq (hga.trans hfa.symm)
    refine ⟨r, ?_, hra.trans hfa, ?_⟩
    · rw [combine, hf, hg]
      exact hr
    · rw [hrp, hfp, hgp, forms, List.map_append, op.total_append]

theorem combine_perm (op : Operator) {n : Nat} {s t : Grouping} (hs : ∀ f ∈ s.forms, f.arity = n)
    (h : s.forms.Perm t.forms) :
    ∃ r, s.combine op = .ok r ∧ t.combine op = .ok r := by
  obtain ⟨r, hr, hra, hrp⟩ := combine_eq op hs
  obtain ⟨r', hr', hra', hrp'⟩ := combine_eq op fun f hf => hs f (h.mem_iff.2 hf)
  have hpolynomial : r.polynomial = r'.polynomial := by
    rw [hrp, hrp', op.total_perm (h.map polynomial)]
  obtain rfl : r = r' := ext_polynomial (hra.trans hra'.symm) hpolynomial
  exact ⟨r, hr, hr'⟩

end Grouping

namespace Operator

variable (op : Operator) {f g h : NormalForm}

theorem apply_comm (hg : g.arity = f.arity) :
    ∃ r, op.apply f g = .ok r ∧ op.apply g f = .ok r := by
  have hforms : ∀ e ∈ [f, g], e.arity = f.arity :=
    List.forall_mem_cons.2 ⟨rfl, List.forall_mem_singleton.2 hg⟩
  exact Grouping.combine_perm op (s := .join (.form f) (.form g))
    (t := .join (.form g) (.form f)) hforms (.swap g f [])

theorem apply_assoc (hg : g.arity = f.arity) (hh : h.arity = f.arity) :
    ∃ fg gh r, op.apply f g = .ok fg ∧ op.apply g h = .ok gh ∧
      op.apply fg h = .ok r ∧ op.apply f gh = .ok r := by
  have hforms : ∀ e ∈ [f, g, h], e.arity = f.arity :=
    List.forall_mem_cons.2 ⟨rfl, List.forall_mem_cons.2 ⟨hg, List.forall_mem_singleton.2 hh⟩⟩
  obtain ⟨fg, hfg, -⟩ := op.apply_eq hg
  obtain ⟨gh, hgh, -⟩ := op.apply_eq (hh.trans hg.symm)
  obtain ⟨r, hleft, hright⟩ := Grouping.combine_perm op
    (s := .join (.join (.form f) (.form g)) (.form h))
    (t := .join (.form f) (.join (.form g) (.form h))) hforms (.refl [f, g, h])
  have hleft : (do op.apply (← op.apply f g) h) = .ok r := hleft
  have hright : (do op.apply f (← op.apply g h)) = .ok r := hright
  rw [hfg] at hleft
  rw [hgh] at hright
  exact ⟨fg, gh, r, hfg, hgh, hleft, hright⟩

end Operator

theorem product_sum {f g h : NormalForm} (hg : g.arity = f.arity) (hh : h.arity = f.arity) :
    ∃ gh fg fh r, g.sum h = .ok gh ∧ f.product g = .ok fg ∧ f.product h = .ok fh ∧
      f.product gh = .ok r ∧ fg.sum fh = .ok r := by
  obtain ⟨gh, hgh, hgha, hghp⟩ := Operator.xor.apply_eq (hh.trans hg.symm)
  obtain ⟨fg, hfg, hfga, hfgp⟩ := Operator.and.apply_eq hg
  obtain ⟨fh, hfh, hfha, hfhp⟩ := Operator.and.apply_eq hh
  obtain ⟨r, hr, hra, hrp⟩ := Operator.and.apply_eq (hgha.trans hg)
  refine ⟨gh, fg, fh, r, hgh, hfg, hfh, hr, ?_⟩
  apply Operator.xor.apply_eq_ok (hfha.trans hfga.symm) (hra.trans hfga.symm)
  rw [hrp, hghp, hfgp, hfhp]
  exact mul_add f.polynomial g.polynomial h.polynomial

theorem product_self (f : NormalForm) : f.product f = .ok f :=
  Operator.and.apply_eq_ok rfl rfl f.polynomial.mul_self.symm

/-- The zero form is the sum of any form with itself, and neutral for sums. -/
theorem sum_zero (f : NormalForm) :
    ∃ o, zero f.arity = .ok o ∧ f.sum f = .ok o ∧ f.sum o = .ok f ∧ o.sum f = .ok f ∧
      f.product o = .ok o ∧ o.product f = .ok o := by
  obtain ⟨o, ho, hoa, hop⟩ : ∃ o, zero f.arity = .ok o ∧ o.arity = f.arity ∧ o.polynomial = 0 :=
    ⟨_, build_of_range f.arity_range _, rfl, rfl⟩
  refine ⟨o, ho, ?_, ?_, ?_, ?_, ?_⟩
  · apply Operator.xor.apply_eq_ok rfl hoa
    rw [hop]
    exact f.polynomial.add_self.symm
  · apply Operator.xor.apply_eq_ok hoa rfl
    rw [hop]
    exact (add_zero f.polynomial).symm
  · apply Operator.xor.apply_eq_ok hoa.symm hoa.symm
    rw [hop]
    exact (zero_add f.polynomial).symm
  · apply Operator.and.apply_eq_ok hoa hoa
    rw [hop]
    exact (mul_zero f.polynomial).symm
  · apply Operator.and.apply_eq_ok hoa.symm rfl
    rw [hop]
    exact (zero_mul f.polynomial).symm

theorem product_one (f : NormalForm) :
    ∃ e, one f.arity = .ok e ∧ f.product e = .ok f ∧ e.product f = .ok f := by
  obtain ⟨e, he, hea, hep⟩ : ∃ e, one f.arity = .ok e ∧ e.arity = f.arity ∧ e.polynomial = 1 :=
    ⟨_, build_of_range f.arity_range _, rfl, rfl⟩
  refine ⟨e, he, ?_, ?_⟩
  · apply Operator.and.apply_eq_ok hea rfl
    rw [hep]
    exact (mul_one f.polynomial).symm
  · apply Operator.and.apply_eq_ok hea.symm hea.symm
    rw [hep]
    exact (one_mul f.polynomial).symm

/-- The laws of a Boolean ring hold of the operators as equations between normal forms, and the
order and grouping of several operands of one operator do not matter. -/
theorem operators_boolean_ring :
    (∀ f g h : NormalForm, g.arity = f.arity → h.arity = f.arity →
      (∃ s, f.sum g = .ok s ∧ g.sum f = .ok s) ∧
      (∃ p, f.product g = .ok p ∧ g.product f = .ok p) ∧
      (∃ fg gh s, f.sum g = .ok fg ∧ g.sum h = .ok gh ∧ fg.sum h = .ok s ∧ f.sum gh = .ok s) ∧
      (∃ fg gh p, f.product g = .ok fg ∧ g.product h = .ok gh ∧
        fg.product h = .ok p ∧ f.product gh = .ok p) ∧
      (∃ gh fg fh r, g.sum h = .ok gh ∧ f.product g = .ok fg ∧ f.product h = .ok fh ∧
        f.product gh = .ok r ∧ fg.sum fh = .ok r) ∧
      f.product f = .ok f ∧
      (∃ o, zero f.arity = .ok o ∧ f.sum f = .ok o ∧ f.sum o = .ok f ∧ o.sum f = .ok f ∧
        f.product o = .ok o ∧ o.product f = .ok o) ∧
      ∃ e, one f.arity = .ok e ∧ f.product e = .ok f ∧ e.product f = .ok f) ∧
    ∀ (op : Operator) (n : Nat) (s t : Grouping), (∀ f ∈ s.forms, f.arity = n) →
      s.forms.Perm t.forms → ∃ r, s.combine op = .ok r ∧ t.combine op = .ok r := by
  refine ⟨?_, fun op n s t => Grouping.combine_perm op⟩
  intro f g h hg hh
  exact ⟨Operator.xor.apply_comm hg, Operator.and.apply_comm hg, Operator.xor.apply_assoc hg hh,
    Operator.and.apply_assoc hg hh, product_sum hg hh, f.product_self, f.sum_zero, f.product_one⟩

/-- The laws at `x0 + x1 x2`, `1 + x2` and `x0 x1`, and two groupings of their product. -/
theorem operators_boolean_ring_example :
    ∃ f g h, ofMonomials 3 [0b001, 0b110] = .ok f ∧ ofMonomials 3 [0b000, 0b100] = .ok g ∧
      ofMonomials 3 [0b011] = .ok h ∧ g.arity = f.arity ∧ h.arity = f.arity ∧
      (∃ gh fg fh r, g.sum h = .ok gh ∧ f.product g = .ok fg ∧ f.product h = .ok fh ∧
        f.product gh = .ok r ∧ fg.sum fh = .ok r) ∧
      ∃ r, Grouping.combine .mul (.join (.join (.form f) (.form g)) (.form h)) = .ok r ∧
        Grouping.combine .mul (.join (.form h) (.join (.form f) (.form g))) = .ok r := by
  obtain ⟨hlaws, hgroupings⟩ := operators_boolean_ring
  obtain ⟨f, g, h, hf, hg, hh, hga, hha⟩ : ∃ f g h, ofMonomials 3 [0b001, 0b110] = .ok f ∧
      ofMonomials 3 [0b000, 0b100] = .ok g ∧ ofMonomials 3 [0b011] = .ok h ∧
      g.arity = f.arity ∧ h.arity = f.arity := ⟨_, _, _, rfl, rfl, rfl, rfl, rfl⟩
  obtain ⟨-, -, -, -, hdistributes, -⟩ := hlaws f g h hga hha
  have hforms : ∀ e ∈ [f, g, h], e.arity = f.arity :=
    List.forall_mem_cons.2 ⟨rfl, List.forall_mem_cons.2 ⟨hga, List.forall_mem_singleton.2 hha⟩⟩
  have hperm : ([f, g] ++ [h]).Perm ([h] ++ [f, g]) := List.perm_append_comm
  exact ⟨f, g, h, hf, hg, hh, hga, hha, hdistributes, hgroupings .mul f.arity _ _ hforms hperm⟩

end NormalForm

end Keystream
