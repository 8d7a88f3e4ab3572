import Keystream.NormalForm.Table
import Keystream.Proofs.Transform

/-!
# Tables and normal forms are inverse

The value of a normal form at an input is the sum of the coefficients included in it, and the
coefficients of a table are the sums of the outputs included in an index. The transform undoes
itself, so evaluating everywhere and taking coefficients undo each other.
-/

namespace Keystream

theorem Word.toNat_ofNat_of_lt {n v : Nat} (hn : n ≤ 64) (hv : v < 2 ^ n) :
    (UInt64.ofNat v).toNat = v := by
  have hlt : v < 2 ^ 64 := Nat.lt_of_lt_of_le hv (Nat.pow_le_pow_right Nat.two_pos hn)
  rw [UInt64.toNat_ofNat', Nat.mod_eq_of_lt hlt]

theorem Monomial.holdsAt_eq_included (m : Monomial) (input : UInt64) :
    m.holdsAt input = Moebius.included m.toNat input.toNat := by
  rw [Bool.eq_iff_iff, holdsAt_iff, Moebius.included_iff]
  rfl

namespace Polynomial

variable {n : Nat}

theorem mem_ofCoefficients (hn : n ≤ 64) (c : Nat) {m : Monomial} :
    m ∈ (ofCoefficients n hn c).monomials ↔ m.toNat < 2 ^ n ∧ c.testBit m.toNat = true := by
  change m ∈ ((List.range (2 ^ n)).filter c.testBit).map UInt64.ofNat ↔ _
  rw [List.mem_map]
  constructor
  · rintro ⟨j, hj, rfl⟩
    obtain ⟨hlt, hc⟩ := List.mem_filter.1 hj
    have hlt := List.mem_range.1 hlt
    rw [Word.toNat_ofNat_of_lt hn hlt]
    exact ⟨hlt, hc⟩
  · rintro ⟨hlt, hc⟩
    exact ⟨m.toNat, List.mem_filter.2 ⟨List.mem_range.2 hlt, hc⟩, UInt64.ofNat_toNat⟩

theorem eval_ofCoefficients (hn : n ≤ 64) (c : Nat) {x : Nat} (hx : x < 2 ^ n) :
    (ofCoefficients n hn c).eval (UInt64.ofNat x) = Moebius.subsetSums n c.testBit x := by
  rw [eval_eq_paritySum, Moebius.subsetSums_eq_paritySum_range _ hx]
  change paritySum (((List.range (2 ^ n)).filter c.testBit).map UInt64.ofNat) _ = _
  rw [paritySum_map, paritySum_filter]
  apply paritySum_congr
  intro m hm
  have hm := List.mem_range.1 hm
  rw [Monomial.holdsAt_eq_included, Word.toNat_ofNat_of_lt hn hm, Word.toNat_ofNat_of_lt hn hx,
    Bool.and_comm]

theorem Within.exists_ofCoefficients (hn : n ≤ 64) {p : Polynomial} (hp : p.Within n) :
    ∃ c, c < 2 ^ (2 ^ n : Nat) ∧ p = ofCoefficients n hn c := by
  let present : Nat → Bool := fun m => decide (UInt64.ofNat m ∈ p.monomials)
  refine ⟨TruthTable.pack n present, TruthTable.pack_lt n present, ?_⟩
  apply ext_mem
  intro m
  have hm : present m.toNat = true ↔ m ∈ p.monomials := by
    rw [decide_eq_true_eq, UInt64.ofNat_toNat]
  rw [mem_ofCoefficients, TruthTable.testBit_pack, Bool.and_eq_true, decide_eq_true_eq, hm,
    ← and_assoc, and_self, iff_and_self]
  exact hp m

end Polynomial

section Transform

variable {transform : Nat → UInt64 → UInt64} (htransform : Moebius.TransformsWords transform)
include htransform

/-- The normal form of a table has the outputs of the table for values. -/
theorem TruthTable.eval_normalFormBy (t : TruthTable) {x : Nat} (hx : x < 2 ^ t.arity) :
    (t.normalFormBy transform).eval (UInt64.ofNat x) = t.lookup x := by
  have hbits : (t.coefficients transform).testBit = Moebius.subsetSums t.arity t.lookup :=
    funext (testBit_coefficients htransform t)
  have heval := Polynomial.eval_ofCoefficients t.arity_le_word (t.coefficients transform) hx
  rw [hbits, Moebius.subsetSums_subsetSums] at heval
  exact heval

/-- A table of the values of a normal form has it for its normal form. -/
theorem TruthTable.normalFormBy_eq {t : TruthTable} {f : NormalForm} (ha : t.arity = f.arity)
    (hvalues : ∀ x, x < 2 ^ f.arity → t.lookup x = f.eval (UInt64.ofNat x)) :
    t.normalFormBy transform = f := by
  obtain ⟨n, p, hn, hp⟩ := f
  obtain rfl : t.arity = n := ha
  obtain ⟨c, hc, rfl⟩ := hp.exists_ofCoefficients t.arity_le_word
  have hzero : ∀ x, 2 ^ t.arity ≤ x → c.testBit x = false := by
    intro x hx
    exact Bits.testBit_of_le hc hx
  have hlookup : t.lookup = Moebius.subsetSums t.arity c.testBit := by
    funext x
    by_cases hx : x < 2 ^ t.arity
    · exact (hvalues x hx).trans (Polynomial.eval_ofCoefficients t.arity_le_word c hx)
    · have hx := Nat.le_of_not_lt hx
      rw [t.lookup_of_le hx, Moebius.subsetSums_of_le (Nat.le_refl _) hzero hx]
  have hcoefficients : t.coefficients transform = c := by
    apply Nat.eq_of_testBit_eq
    intro m
    rw [testBit_coefficients htransform, hlookup, Moebius.subsetSums_subsetSums]
  simp only [normalFormBy, hcoefficients]

end Transform

namespace NormalForm

theorem exists_table {f : NormalForm} (hle : f.arity ≤ 31) :
    ∃ t, f.table = .ok t ∧ t.arity = f.arity ∧ (t.isSmall = true ↔ f.arity ≤ 6) ∧
      ∀ x, x < 2 ^ f.arity → t.lookup x = f.eval (UInt64.ofNat x) :=
  TruthTable.exists_tabulate f.arity_pos hle _

/-- Tabulating a normal form of at most 31 variables and taking the normal form of a table are
inverse to each other, whatever transform of words small tables use. -/
theorem table_inverse {transform : Nat → UInt64 → UInt64}
    (htransform : Moebius.TransformsWords transform) :
    (∀ f : NormalForm, f.arity ≤ 31 → ∃ t, f.table = .ok t ∧
      (∀ x : UInt64, x.toNat < 2 ^ f.arity → t.output x.toNat = .ok (f.eval x)) ∧
      t.normalFormBy transform = f) ∧
    (∀ t : TruthTable, ∃ t', (t.normalFormBy transform).table = .ok t' ∧
      (∀ x, x < 2 ^ t.arity → ∃ b, t.output x = .ok b ∧ t'.output x = .ok b) ∧
      ((t.isSmall = true ↔ t.arity ≤ 6) → t' = t)) ∧
    ∀ f : NormalForm, 31 < f.arity → f.table = .error (.tooManyVariables 31) := by
  refine ⟨?_, ?_, ?_⟩
  · intro f hle
    obtain ⟨t, ht, ha, -, hvalues⟩ := exists_table hle
    refine ⟨t, ht, ?_, TruthTable.normalFormBy_eq htransform ha hvalues⟩
    intro x hx
    rw [t.output_of_lt (ha ▸ hx), hvalues _ hx, UInt64.ofNat_toNat]
  · intro t
    have hle : (t.normalFormBy transform).arity ≤ 31 := t.arity_le
    obtain ⟨t', ht', ha, hs, hvalues⟩ := exists_table hle
    have ha : t'.arity = t.arity := ha
    have hlookup : ∀ x, x < 2 ^ t.arity → t'.lookup x = t.lookup x := by
      intro x hx
      exact (hvalues x hx).trans (t.eval_normalFormBy htransform hx)
    refine ⟨t', ht', ?_, ?_⟩
    · intro x hx
      refine ⟨t.lookup x, t.output_of_lt hx, ?_⟩
      rw [t'.output_of_lt (ha.symm ▸ hx), hlookup x hx]
    · intro hsmall
      have hkind : t'.isSmall = t.isSmall := Bool.eq_iff_iff.2 (hs.trans hsmall.symm)
      apply TruthTable.ext_lookup hkind ha
      intro x hx
      exact hlookup x (ha ▸ hx)
  · intro f hlt
    exact TruthTable.tabulate_of_lt hlt _

theorem table_inverse_example :
    Moebius.TransformsWords Moebius.transformWord ∧
    (∃ f t, NormalForm.ofMonomials 3 [0b000, 0b011, 0b101, 0b100] = .ok f ∧ f.arity ≤ 31 ∧
      f.table = .ok t ∧ t.normalForm = f) ∧
    (∃ t, TruthTable.ofPacked 3 0x27 = .ok t ∧ (t.isSmall = true ↔ t.arity ≤ 6) ∧
      t.normalForm.table = .ok t) ∧
    ∃ f, NormalForm.ofVariable 40 39 = .ok f ∧ 31 < f.arity ∧
      f.table = .error (.tooManyVariables 31) := by
  obtain ⟨hforms, htables, hlarge⟩ := table_inverse Moebius.transformsWords_transformWord
  obtain ⟨f, hf, hle⟩ : ∃ f, NormalForm.ofMonomials 3 [0b000, 0b011, 0b101, 0b100] = .ok f ∧
      f.arity ≤ 31 := ⟨_, rfl, by decide⟩
  obtain ⟨u, hu, hsmall⟩ : ∃ u, TruthTable.ofPacked 3 0x27 = .ok u ∧
      (u.isSmall = true ↔ u.arity ≤ 6) := ⟨_, rfl, by decide⟩
  obtain ⟨g, hg, hlt⟩ : ∃ g, NormalForm.ofVariable 40 39 = .ok g ∧ 31 < g.arity :=
    ⟨_, rfl, by decide⟩
  obtain ⟨t, ht, -, hform⟩ := hforms f hle
  obtain ⟨u', hu', -, heq⟩ := htables u
  refine ⟨Moebius.transformsWords_transformWord, ⟨f, t, hf, hle, ht, hform⟩,
    ⟨u, hu, hsmall, ?_⟩, ⟨g, hg, hlt, hlarge g hlt⟩⟩
  rw [heq hsmall] at hu'
  exact hu'

end NormalForm

end Keystream
