import Keystream.NormalForm.Operators
import Keystream.Proofs.Inversion

/-!
# Operators act on values and on tables

Toggling monomials one after another adds them up, in whatever order, so the operators in place give
the sum and the product. Evaluation turns these into the sum and the product of bits at every input,
and tabulation into the exclusive or and the conjunction of packed tables.
-/

namespace Keystream

namespace Polynomial

/-- A loop whose steps add a bit each to a sum over monomials adds the sum of these bits. -/
theorem paritySum_foldl {α : Type} {φ : Monomial → Bool} {ψ : α → Bool}
    {step : Polynomial → α → Polynomial}
    (h : ∀ s a, paritySum (step s a).monomials φ = (ψ a ^^ paritySum s.monomials φ))
    (l : List α) (s : Polynomial) :
    paritySum (l.foldl step s).monomials φ = (paritySum l ψ ^^ paritySum s.monomials φ) := by
  induction l generalizing s with
  | nil => exact (Bool.false_xor _).symm
  | cons a l ih =>
    rw [List.foldl_cons, ih, h, paritySum_cons, Bool.xor_left_comm, Bool.xor_assoc]

theorem addInPlace_eq (p q : Polynomial) : p.addInPlace q = p + q := by
  apply ext_paritySum
  intro φ
  rw [addInPlace, paritySum_foldl fun s m => paritySum_toggle m s φ, paritySum_add, Bool.xor_comm]

theorem mulInPlace_eq (p q : Polynomial) : p.mulInPlace q = p * q := by
  apply ext_paritySum
  intro φ
  have hrow : ∀ (s : Polynomial) (m : Monomial),
      paritySum (q.monomials.foldl (fun s r => s.toggle (m ||| r)) s).monomials φ =
        (paritySum q.monomials (fun r => φ (m ||| r)) ^^ paritySum s.monomials φ) :=
    fun s m => paritySum_foldl (fun s r => paritySum_toggle (m ||| r) s φ) q.monomials s
  rw [mulInPlace, paritySum_foldl hrow, paritySum_mul]
  exact Bool.xor_false _

end Polynomial

namespace NormalForm

/-- In place an operator leaves what it gives otherwise, where it fails the operand as it was. -/
theorem Operator.assign_eq (op : Operator) (f g : NormalForm) :
    op.assign f g =
      match op.apply f g with
      | .ok h => (.ok (), h)
      | .error e => (.error e, f) := by
  have hsum : f.addInPlace g =
      match f.sum g with
      | .ok h => (.ok (), h)
      | .error e => (.error e, f) := by
    simp only [addInPlace, sum, Polynomial.addInPlace_eq]
    split <;> rfl
  have hproduct : f.mulInPlace g =
      match f.product g with
      | .ok h => (.ok (), h)
      | .error e => (.error e, f) := by
    simp only [mulInPlace, product, Polynomial.mulInPlace_eq]
    split <;> rfl
  cases op with
  | xor => exact hsum
  | add => exact hsum
  | and => exact hproduct
  | mul => exact hproduct

theorem exists_sum {f g : NormalForm} (ha : g.arity = f.arity) :
    ∃ s, f.sum g = .ok s ∧ s.arity = f.arity ∧ ∀ v, s.eval v = (f.eval v ^^ g.eval v) := by
  rw [sum, dif_pos ha]
  exact ⟨_, rfl, rfl, Polynomial.eval_add f.polynomial g.polynomial⟩

theorem exists_product {f g : NormalForm} (ha : g.arity = f.arity) :
    ∃ p, f.product g = .ok p ∧ p.arity = f.arity ∧ ∀ v, p.eval v = (f.eval v && g.eval v) := by
  rw [product, dif_pos ha]
  exact ⟨_, rfl, rfl, Polynomial.eval_mul f.polynomial g.polynomial⟩

theorem exists_packed {f : NormalForm} (hle : f.arity ≤ 31) :
    ∃ t, f.table = .ok t ∧
      ∀ x, t.packed.testBit x = (decide (x < 2 ^ f.arity) && f.eval (UInt64.ofNat x)) := by
  obtain ⟨t, ht, ha, -, hvalues⟩ := exists_table hle
  refine ⟨t, ht, ?_⟩
  intro x
  rw [← TruthTable.lookup_eq_testBit]
  by_cases hx : x < 2 ^ f.arity
  · rw [hvalues x hx, decide_eq_true hx, Bool.true_and]
  · rw [t.lookup_of_le (ha.symm ▸ Nat.le_of_not_lt hx), decide_eq_false hx, Bool.false_and]

/-- Both signs of a sum give one sum, also in place, and both signs of a product one product. Their
values and their packed tables are the sums and the products of those of the operands. -/
theorem operators_pointwise {f g : NormalForm} (ha : g.arity = f.arity) :
    ∃ s p,
      (Operator.xor.apply f g = .ok s ∧ Operator.add.apply f g = .ok s ∧
        Operator.xor.assign f g = (.ok (), s) ∧ Operator.add.assign f g = (.ok (), s)) ∧
      (Operator.and.apply f g = .ok p ∧ Operator.mul.apply f g = .ok p ∧
        Operator.and.assign f g = (.ok (), p) ∧ Operator.mul.assign f g = (.ok (), p)) ∧
      (∀ v : UInt64, s.eval v = (f.eval v ^^ g.eval v) ∧ p.eval v = (f.eval v && g.eval v)) ∧
      (f.arity ≤ 31 → ∃ tf tg ts tp,
        f.table = .ok tf ∧ g.table = .ok tg ∧ s.table = .ok ts ∧ p.table = .ok tp ∧
        ts.packed = tf.packed ^^^ tg.packed ∧ tp.packed = tf.packed &&& tg.packed) := by
  obtain ⟨s, hs, hsa, hsv⟩ := exists_sum ha
  obtain ⟨p, hp, hpa, hpv⟩ := exists_product ha
  have hxor : Operator.xor.apply f g = .ok s := hs
  have hadd : Operator.add.apply f g = .ok s := hs
  have hand : Operator.and.apply f g = .ok p := hp
  have hmul : Operator.mul.apply f g = .ok p := hp
  refine ⟨s, p, ⟨hxor, hadd, ?_, ?_⟩, ⟨hand, hmul, ?_, ?_⟩, fun v => ⟨hsv v, hpv v⟩, ?_⟩
  · rw [Operator.assign_eq, hxor]
  · rw [Operator.assign_eq, hadd]
  · rw [Operator.assign_eq, hand]
  · rw [Operator.assign_eq, hmul]
  · intro hle
    obtain ⟨tf, htf, hbf⟩ := exists_packed hle
    obtain ⟨tg, htg, hbg⟩ := exists_packed (f := g) (by omega)
    obtain ⟨ts, hts, hbs⟩ := exists_packed (f := s) (by omega)
    obtain ⟨tp, htp, hbp⟩ := exists_packed (f := p) (by omega)
    rw [ha] at hbg
    rw [hsa] at hbs
    rw [hpa] at hbp
    refine ⟨tf, tg, ts, tp, htf, htg, hts, htp, ?_, ?_⟩
    · apply Nat.eq_of_testBit_eq
      intro x
      rw [Nat.testBit_xor, hbf, hbg, hbs, hsv, Bool.and_xor_distrib_left]
    · apply Nat.eq_of_testBit_eq
      intro x
      rw [Nat.testBit_and, hbf, hbg, hbp, hpv]
      cases decide (x < 2 ^ f.arity) <;> rfl

/-- Sum and product of `x0 + 1 + x1 x2` and `x1 + x0`. -/
theorem operators_pointwise_example :
    ∃ f g s p, ofMonomials 3 [0b001, 0b000, 0b110] = .ok f ∧ ofMonomials 3 [0b010, 0b001] = .ok g ∧
      g.arity = f.arity ∧ f.arity ≤ 31 ∧ Operator.xor.assign f g = (.ok (), s) ∧
      Operator.mul.assign f g = (.ok (), p) ∧ s.eval 0b110 = (f.eval 0b110 ^^ g.eval 0b110) ∧
      p.eval 0b110 = (f.eval 0b110 && g.eval 0b110) ∧
      ∃ tf tg ts, f.table = .ok tf ∧ g.table = .ok tg ∧ s.table = .ok ts ∧
        ts.packed = tf.packed ^^^ tg.packed := by
  obtain ⟨f, g, hf, hg, ha, hle⟩ : ∃ f g, ofMonomials 3 [0b001, 0b000, 0b110] = .ok f ∧
      ofMonomials 3 [0b010, 0b001] = .ok g ∧ g.arity = f.arity ∧ f.arity ≤ 31 :=
    ⟨_, _, rfl, rfl, rfl, by decide⟩
  obtain ⟨s, p, ⟨-, -, hxor, -⟩, ⟨-, -, -, hmul⟩, hvalues, htables⟩ := operators_pointwise ha
  obtain ⟨tf, tg, ts, -, htf, htg, hts, -, hpacked, -⟩ := htables hle
  obtain ⟨hs, hp⟩ := hvalues 0b110
  exact ⟨f, g, s, p, hf, hg, ha, hle, hxor, hmul, hs, hp, tf, tg, ts, htf, htg, hts, hpacked⟩

end NormalForm

end Keystream
