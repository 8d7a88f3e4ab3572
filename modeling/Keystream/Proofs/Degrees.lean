import Mathlib.Tactic.ByContra
import Keystream.Proofs.BooleanRing
import Keystream.Proofs.InnerProduct

/-!
# Degrees of sums and products

A monomial is in a sum if it is in exactly one of the operands, and every monomial of a product joins
one monomial of each. Degrees therefore add up at most, and where two of them differ, a monomial of
the higher one has nothing in a sum to cancel with. Normal forms of different degrees are different,
so some input tells them apart.
-/

namespace Keystream

theorem countP_or_le {α : Type} (p q : α → Bool) (l : List α) :
    l.countP (fun a => p a || q a) ≤ l.countP p + l.countP q := by
  induction l with
  | nil => exact Nat.le_refl 0
  | cons a l ih =>
    simp only [List.countP_cons]
    cases p a <;> cases q a <;> simp <;> omega

namespace Monomial

theorem degree_eq_countP {n : Nat} {m : Monomial} (hm : m.toNat < 2 ^ n) :
    degree m = (List.range n).countP (Word.bit m) :=
  Bits.ones_eq_countP hm

theorem degree_le {n : Nat} {m : Monomial} (hm : m.toNat < 2 ^ n) : degree m ≤ n := by
  rw [degree_eq_countP hm]
  exact List.countP_le_length.trans (Nat.le_of_eq List.length_range)

theorem degree_or_le (m r : Monomial) : degree (m ||| r) ≤ degree m + degree r := by
  have hbits : Word.bit (m ||| r) = fun i => Word.bit m i || Word.bit r i := funext (Word.bit_or m r)
  rw [degree_eq_countP (m ||| r).toNat_lt, degree_eq_countP m.toNat_lt, degree_eq_countP r.toNat_lt,
    hbits]
  exact countP_or_le _ _ _

end Monomial

namespace Polynomial

theorem mem_add {p q : Polynomial} {m : Monomial} :
    m ∈ (p + q).monomials ↔ ¬(m ∈ p.monomials ↔ m ∈ q.monomials) := by
  rw [mem_iff_paritySum, mem_iff_paritySum, mem_iff_paritySum, paritySum_add, ← Bool.eq_iff_iff,
    Bool.xor_iff_ne]

theorem exists_of_mem_mul {p q : Polynomial} {m : Monomial} (h : m ∈ (p * q).monomials) :
    ∃ a ∈ p.monomials, ∃ b ∈ q.monomials, a ||| b = m := by
  have hcoefficient := mem_iff_paritySum.1 h
  rw [paritySum_mul] at hcoefficient
  obtain ⟨a, ha, hrow⟩ := exists_of_paritySum hcoefficient
  obtain ⟨b, hb, hab⟩ := exists_of_paritySum hrow
  exact ⟨a, ha, b, hb, of_decide_eq_true hab⟩

theorem degree_le_iff {p : Polynomial} {d : Nat} :
    p.degree ≤ d ↔ ∀ m ∈ p.monomials, Monomial.degree m ≤ d := by
  unfold degree
  induction p.monomials with
  | nil => simp
  | cons m ms ih => rw [List.foldr_cons, Nat.max_le, ih, List.forall_mem_cons]

theorem degree_le_degree {p : Polynomial} {m : Monomial} (h : m ∈ p.monomials) :
    Monomial.degree m ≤ p.degree :=
  degree_le_iff.1 (Nat.le_refl _) m h

theorem exists_degree_eq {p : Polynomial} (h : 0 < p.degree) :
    ∃ m ∈ p.monomials, Monomial.degree m = p.degree := by
  unfold degree at h ⊢
  generalize p.monomials = ms at h
  induction ms with
  | nil => exact absurd h (Nat.lt_irrefl 0)
  | cons m ms ih =>
    rw [List.foldr_cons] at h ⊢
    rcases Nat.lt_or_ge (Monomial.degree m) (ms.foldr (fun r d => max r.degree d) 0) with hlt | hle
    · obtain ⟨r, hr, hdegree⟩ := ih (Nat.zero_lt_of_lt hlt)
      exact ⟨r, List.mem_cons_of_mem m hr,
        hdegree.trans (Nat.max_eq_right (Nat.le_of_lt hlt)).symm⟩
    · exact ⟨m, List.mem_cons_self, (Nat.max_eq_left hle).symm⟩

theorem degree_add_le (p q : Polynomial) : (p + q).degree ≤ max p.degree q.degree := by
  apply degree_le_iff.2
  intro m hm
  by_cases hp : m ∈ p.monomials
  · exact (degree_le_degree hp).trans (Nat.le_max_left _ _)
  · have hq : m ∈ q.monomials := by
      by_contra hq
      exact mem_add.1 hm (iff_of_false hp hq)
    exact (degree_le_degree hq).trans (Nat.le_max_right _ _)

theorem degree_le_degree_add {p q : Polynomial} (h : p.degree < q.degree) :
    q.degree ≤ (p + q).degree := by
  obtain ⟨m, hq, hm⟩ := exists_degree_eq (Nat.zero_lt_of_lt h)
  have hp : m ∉ p.monomials := by
    intro hp
    have hle := degree_le_degree hp
    omega
  rw [← hm]
  exact degree_le_degree (mem_add.2 fun hiff => hp (hiff.2 hq))

theorem degree_add_of_ne {p q : Polynomial} (h : p.degree ≠ q.degree) :
    (p + q).degree = max p.degree q.degree := by
  apply Nat.le_antisymm (degree_add_le p q)
  rcases Nat.lt_or_gt_of_ne h with hlt | hlt
  · rw [Nat.max_eq_right (Nat.le_of_lt hlt)]
    exact degree_le_degree_add hlt
  · rw [Nat.max_eq_left (Nat.le_of_lt hlt), add_comm]
    exact degree_le_degree_add hlt

theorem degree_mul_le (p q : Polynomial) : (p * q).degree ≤ p.degree + q.degree := by
  apply degree_le_iff.2
  intro m hm
  obtain ⟨a, ha, b, hb, rfl⟩ := exists_of_mem_mul hm
  calc Monomial.degree (a ||| b) ≤ Monomial.degree a + Monomial.degree b := Monomial.degree_or_le a b
    _ ≤ p.degree + q.degree := Nat.add_le_add (degree_le_degree ha) (degree_le_degree hb)

end Polynomial

namespace NormalForm

theorem degree_le (f : NormalForm) : f.degree ≤ f.arity :=
  Polynomial.degree_le_iff.2 fun m hm => Monomial.degree_le (f.within m hm)

theorem exists_eval_ne {f g : NormalForm} (ha : g.arity = f.arity) (h : f.degree < g.degree) :
    ∃ v : UInt64, v.toNat < 2 ^ f.arity ∧ f.eval v ≠ g.eval v := by
  by_contra hnone
  have hvalues : ∀ v : UInt64, v.toNat < 2 ^ f.arity → f.eval v = g.eval v := by
    intro v hv
    by_contra hne
    exact hnone ⟨v, hv, hne⟩
  rw [ext_eval ha.symm hvalues] at h
  exact Nat.lt_irrefl _ h

/-- The degree of a sum is at most the higher one, and equal to it unless both are the same. That of
a product is at most the sum of both and never more than there are variables. Where the degrees
differ, so does some value. -/
theorem degree_laws {f g : NormalForm} (ha : g.arity = f.arity) :
    ∃ s p, f.sum g = .ok s ∧ f.product g = .ok p ∧
      s.degree ≤ max f.degree g.degree ∧
      (f.degree ≠ g.degree → s.degree = max f.degree g.degree) ∧
      p.degree ≤ min f.arity (f.degree + g.degree) ∧
      (f.degree < g.degree → ∃ v : UInt64, v.toNat < 2 ^ f.arity ∧ f.eval v ≠ g.eval v) := by
  obtain ⟨s, hs, -, hsp⟩ := Operator.xor.apply_eq ha
  obtain ⟨p, hp, hpa, hpp⟩ := Operator.and.apply_eq ha
  have hsum : s.degree = (f.polynomial + g.polynomial).degree := congrArg Polynomial.degree hsp
  have hproduct : p.degree = (f.polynomial * g.polynomial).degree := congrArg Polynomial.degree hpp
  refine ⟨s, p, hs, hp, ?_, ?_, ?_, exists_eval_ne ha⟩
  · rw [hsum]
    exact Polynomial.degree_add_le f.polynomial g.polynomial
  · intro hne
    rw [hsum]
    exact Polynomial.degree_add_of_ne hne
  · apply Nat.le_min.2
    constructor
    · rw [← hpa]
      exact p.degree_le
    · rw [hproduct]
      exact Polynomial.degree_mul_le f.polynomial g.polynomial

/-- Degrees two and three: the quadratic terms of `x0 + x0 x1` and `1 + x0 x1 + x1 x2 x3` cancel. -/
theorem degree_laws_example :
    ∃ f g s p, ofMonomials 4 [0b0001, 0b0011] = .ok f ∧
      ofMonomials 4 [0b0000, 0b0011, 0b1110] = .ok g ∧ g.arity = f.arity ∧
      f.degree ≠ g.degree ∧ f.degree < g.degree ∧ f.sum g = .ok s ∧ f.product g = .ok p ∧
      s.degree = max f.degree g.degree ∧ p.degree ≤ min f.arity (f.degree + g.degree) ∧
      ∃ v : UInt64, v.toNat < 2 ^ f.arity ∧ f.eval v ≠ g.eval v := by
  obtain ⟨f, g, hf, hg, ha, hlt⟩ : ∃ f g, ofMonomials 4 [0b0001, 0b0011] = .ok f ∧
      ofMonomials 4 [0b0000, 0b0011, 0b1110] = .ok g ∧ g.arity = f.arity ∧ f.degree < g.degree :=
    ⟨_, _, rfl, rfl, rfl, by decide +kernel⟩
  have hne : f.degree ≠ g.degree := Nat.ne_of_lt hlt
  obtain ⟨s, p, hs, hp, -, hsum, hproduct, hvalue⟩ := degree_laws ha
  exact ⟨f, g, s, p, hf, hg, ha, hne, hlt, hs, hp, hsum hne, hproduct, hvalue hlt⟩

end NormalForm

end Keystream
