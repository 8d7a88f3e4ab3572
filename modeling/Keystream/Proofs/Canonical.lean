import Keystream.Proofs.Views

/-!
# Normal forms are canonical

The values of a normal form are the subset sums of its coefficients, and taking subset sums undoes
itself, so normal forms of one number of variables with the same values are the same. Two functions
are therefore found equal exactly if they have as many variables and the same values, whatever they
were made from, and their texts tell them apart.
-/

namespace Keystream

/-- Entries of `n` variables are determined by their subset sums. -/
theorem Moebius.subsetSums_inj {n : Nat} {g h : Nat → Bool} (hg : ∀ j, 2 ^ n ≤ j → g j = false)
    (hh : ∀ j, 2 ^ n ≤ j → h j = false)
    (heq : ∀ j, j < 2 ^ n → subsetSums n g j = subsetSums n h j) : g = h := by
  have hsums : subsetSums n g = subsetSums n h := by
    funext j
    rcases Nat.lt_or_ge j (2 ^ n) with hj | hj
    · exact heq j hj
    · rw [subsetSums_of_le (Nat.le_refl n) hg hj, subsetSums_of_le (Nat.le_refl n) hh hj]
  rw [← subsetSums_subsetSums n g, hsums, subsetSums_subsetSums]

theorem Polynomial.Within.ext_eval {n : Nat} (hn : n ≤ 64) {p q : Polynomial} (hp : p.Within n)
    (hq : q.Within n) (h : ∀ v : UInt64, v.toNat < 2 ^ n → p.eval v = q.eval v) : p = q := by
  -- Packed coefficients exist for any number of variables; no table has to be small enough.
  obtain ⟨c, hc, rfl⟩ := hp.exists_ofCoefficients hn
  obtain ⟨d, hd, rfl⟩ := hq.exists_ofCoefficients hn
  have hbits : c.testBit = d.testBit := by
    apply Moebius.subsetSums_inj (n := n)
    · intro j hj
      exact Bits.testBit_of_le hc hj
    · intro j hj
      exact Bits.testBit_of_le hd hj
    · intro x hx
      have hx' : (UInt64.ofNat x).toNat < 2 ^ n := (Word.toNat_ofNat_of_lt hn hx).symm ▸ hx
      have hvalue := h (UInt64.ofNat x) hx'
      rwa [eval_ofCoefficients hn c hx, eval_ofCoefficients hn d hx] at hvalue
  rw [Nat.eq_of_testBit_eq (congrFun hbits)]

namespace NormalForm

theorem ext_eval {f g : NormalForm} (ha : f.arity = g.arity)
    (h : ∀ v : UInt64, v.toNat < 2 ^ f.arity → f.eval v = g.eval v) : f = g := by
  obtain ⟨n, p, hn, hp⟩ := f
  obtain ⟨m, q, hm, hq⟩ := g
  obtain rfl : n = m := ha
  obtain rfl : p = q := hp.ext_eval (Nat.le_succ_of_le hn.2) hq h
  rfl

theorem text_inj {f g : NormalForm} (ha : f.arity = g.arity) (numbering : Numbering) :
    f.text numbering = g.text numbering ↔ f = g := by
  constructor
  · intro h
    have hf := f.parse_text numbering
    rw [ha, h, g.parse_text numbering] at hf
    exact (Except.ok.inj hf).symm
  · rintro rfl
    rfl

end NormalForm

namespace BooleanFunction

theorem equal_iff_evalWord (f g : BooleanFunction) :
    (f.equal g).1 = true ↔
      f.arity = g.arity ∧ ∀ v : UInt64, v.toNat < 2 ^ f.arity → f.evalWord v = g.evalWord v := by
  rw [equal_iff]
  constructor
  · intro h
    constructor
    · rw [← f.arity_normalForm, ← g.arity_normalForm, h]
    · intro v _
      rw [evalWord_eq, evalWord_eq, h]
  · rintro ⟨ha, hvalues⟩
    apply NormalForm.ext_eval
    · rw [arity_normalForm, arity_normalForm, ha]
    · intro v hv
      rw [arity_normalForm] at hv
      rw [← evalWord_eq, ← evalWord_eq, hvalues v hv]

theorem equal_iff_text {f g : BooleanFunction} (ha : f.arity = g.arity) :
    (f.equal g).1 = true ↔ f.text.1 = g.text.1 := by
  have harity : f.normalForm.1.arity = g.normalForm.1.arity := by
    rw [arity_normalForm, arity_normalForm, ha]
  rw [equal_iff]
  exact (NormalForm.text_inj harity .fromZero).symm

/-- Normal forms with the same values are the same. Functions are equal if the normal forms of what
they were made from are, by whatever transform of words; equivalently if they have the same values,
or the same text. -/
theorem equal_extensional {transform : Nat → UInt64 → UInt64}
    (htransform : Moebius.TransformsWords transform) :
    (∀ f g : NormalForm, f.arity = g.arity →
      (∀ v : UInt64, v.toNat < 2 ^ f.arity → f.eval v = g.eval v) → f = g) ∧
    ∀ f g : BooleanFunction,
      ((f.equal g).1 = true ↔ f.formBy transform = g.formBy transform) ∧
      ((f.equal g).1 = true ↔
        f.arity = g.arity ∧
          ∀ v : UInt64, v.toNat < 2 ^ f.arity → f.evalWord v = g.evalWord v) ∧
      (f.arity = g.arity → ((f.equal g).1 = true ↔ f.text.1 = g.text.1)) := by
  refine ⟨fun f g => NormalForm.ext_eval, ?_⟩
  intro f g
  refine ⟨?_, f.equal_iff_evalWord g, equal_iff_text⟩
  rw [equal_iff, formBy_eq htransform, formBy_eq htransform]

/-- A table of three variables in a word and the same table as a large one. -/
theorem equal_extensional_example :
    Moebius.TransformsWords Moebius.transformWord ∧
    (∃ f g, NormalForm.ofMonomials 3 [6, 0, 6] = .ok f ∧ NormalForm.one 3 = .ok g ∧
      f.arity = g.arity ∧ (∀ v : UInt64, v.toNat < 2 ^ f.arity → f.eval v = g.eval v) ∧ f = g) ∧
    ∃ t u, TruthTable.ofPacked 3 0x27 = .ok (.small t) ∧ LargeTable.ofPacked 3 0x27 = .ok u ∧
      (ofTable (.small t)).arity = (ofTable (.large u)).arity ∧
      ((ofTable (.small t)).equal (ofTable (.large u))).1 = true ∧
      (ofTable (.small t)).text.1 = (ofTable (.large u)).text.1 := by
  obtain ⟨hforms, hfunctions⟩ := equal_extensional Moebius.transformsWords_transformWord
  obtain ⟨f, g, hf, hg, ha, hv⟩ : ∃ f g, NormalForm.ofMonomials 3 [6, 0, 6] = .ok f ∧
      NormalForm.one 3 = .ok g ∧ f.arity = g.arity ∧
      ∀ v : UInt64, v.toNat < 2 ^ f.arity → f.eval v = g.eval v :=
    ⟨_, _, rfl, rfl, rfl, fun _ _ => rfl⟩
  obtain ⟨t, u, ht, hu, hat, hvalues⟩ : ∃ t u, TruthTable.ofPacked 3 0x27 = .ok (.small t) ∧
      LargeTable.ofPacked 3 0x27 = .ok u ∧
      (ofTable (.small t)).arity = (ofTable (.large u)).arity ∧
      ∀ v, (ofTable (.small t)).evalWord v = (ofTable (.large u)).evalWord v :=
    ⟨_, _, rfl, rfl, rfl, fun _ => rfl⟩
  obtain ⟨-, hequal, htext⟩ := hfunctions (ofTable (.small t)) (ofTable (.large u))
  have htrue := hequal.2 ⟨hat, fun v _ => hvalues v⟩
  exact ⟨Moebius.transformsWords_transformWord, ⟨f, g, hf, hg, ha, hv, hforms f g ha hv⟩,
    ⟨t, u, ht, hu, hat, htrue, (htext hat).1 htrue⟩⟩

end BooleanFunction

end Keystream
