import Mathlib.Data.Set.Card
import Keystream.Proofs.Degrees
import Keystream.Proofs.MonomialLists
import Keystream.Proofs.Storage

/-!
# Coefficients of tables

A monomial is in the normal form of a table if the table is one at an odd number of the inputs
included in it. Every input is included in the product of all variables, the one monomial of full
degree, so the degree is full if the table has odd weight.
-/

namespace Keystream

theorem Word.ncard_eq_countP {n : Nat} (hn : n ≤ 64) (p : Nat → Bool) :
    {x : UInt64 | x.toNat < 2 ^ n ∧ p x.toNat = true}.ncard = (List.range (2 ^ n)).countP p := by
  have hset : {x : UInt64 | x.toNat < 2 ^ n ∧ p x.toNat = true} =
      (((List.range (2 ^ n)).filter p).map UInt64.ofNat).toFinset := by
    ext x
    simp only [Set.mem_ofPred_eq, List.coe_toFinset, List.mem_map, List.mem_filter, List.mem_range]
    constructor
    · intro hx
      exact ⟨x.toNat, hx, UInt64.ofNat_toNat⟩
    · rintro ⟨v, ⟨hv, hp⟩, rfl⟩
      rw [toNat_ofNat_of_lt hn hv]
      exact ⟨hv, hp⟩
  have hnodup : (((List.range (2 ^ n)).filter p).map UInt64.ofNat).Nodup := by
    apply (List.nodup_range.filter p).map_on
    intro v hv w hw h
    have hv := List.mem_range.1 (List.mem_filter.1 hv).1
    have hw := List.mem_range.1 (List.mem_filter.1 hw).1
    rw [← toNat_ofNat_of_lt hn hv, h, toNat_ofNat_of_lt hn hw]
  rw [hset, Set.ncard_coe_finset, List.toFinset_card_of_nodup hnodup, List.length_map,
    List.countP_eq_length_filter]

theorem Word.toNat_lowMask_lt (n : Nat) : (lowMask n).toNat < 2 ^ n := by
  have hlt := toNat_low_lt n (lowMask n)
  rwa [low, UInt64.and_self] at hlt

/-- Only the product of all variables has as many as there are. -/
theorem Monomial.degree_eq_iff {n : Nat} (hn : n ≤ 64) {m : Monomial} (hm : m.toNat < 2 ^ n) :
    degree m = n ↔ m = Word.lowMask n := by
  have hall := List.countP_eq_length (l := List.range n) (p := Word.bit m)
  rw [← degree_eq_countP hm, List.length_range] at hall
  rw [hall]
  constructor
  · intro h
    apply Word.ext_bit
    intro i hi
    rw [Word.bit_lowMask n hi, Bool.eq_iff_iff, decide_eq_true_eq]
    exact ⟨Word.lt_of_bit hm, fun hin => h i (List.mem_range.2 hin)⟩
  · rintro rfl i hi
    have hi := List.mem_range.1 hi
    rw [Word.bit_lowMask n (by omega), decide_eq_true hi]

theorem Moebius.included_lowMask {n x : Nat} (hn : n ≤ 64) (hx : x < 2 ^ n) :
    included x (Word.lowMask n).toNat = true := by
  rw [included_iff]
  intro i hi
  have hin : i < n := Bits.lt_of_testBit hx hi
  exact (Word.bit_lowMask n (Nat.lt_of_lt_of_le hin hn)).trans (decide_eq_true hin)

theorem NormalForm.degree_eq_arity_iff (f : NormalForm) :
    f.degree = f.arity ↔ f.contains (Word.lowMask f.arity) = true := by
  have hn : f.arity ≤ 64 := Nat.le_succ_of_le f.arity_le
  rw [contains, List.contains_iff_mem]
  constructor
  · intro h
    have hpos : 0 < f.degree := h ▸ f.arity_pos
    obtain ⟨m, hm, hdegree⟩ := Polynomial.exists_degree_eq hpos
    rw [← (Monomial.degree_eq_iff hn (f.within m hm)).1 (hdegree.trans h)]
    exact hm
  · intro h
    apply Nat.le_antisymm f.degree_le
    rw [← (Monomial.degree_eq_iff hn (f.within _ h)).2 rfl]
    exact Polynomial.degree_le_degree h

namespace TruthTable

variable {transform : Nat → UInt64 → UInt64}

theorem contains_normalFormBy_iff (htransform : Moebius.TransformsWords transform) (t : TruthTable)
    {m : Monomial} (hm : m.toNat < 2 ^ t.arity) :
    (t.normalFormBy transform).contains m = true ↔
      Odd ((List.range (2 ^ t.arity)).countP fun x =>
        Moebius.included x m.toNat && t.lookup x) := by
  rw [NormalForm.contains, List.contains_iff_mem]
  refine (Polynomial.mem_ofCoefficients t.arity_le_word _).trans ?_
  rw [testBit_coefficients htransform,
    Moebius.subsetSums_eq_paritySum_range _ hm, paritySum_eq_true_iff, and_iff_right hm]

/-- The inputs included in a monomial at which the table is one. -/
theorem ncard_included (t : TruthTable) {m : Monomial} (hm : m.toNat < 2 ^ t.arity) :
    {x : UInt64 | x &&& m = x ∧ t.output x.toNat = .ok true}.ncard =
      (List.range (2 ^ t.arity)).countP fun x => Moebius.included x m.toNat && t.lookup x := by
  rw [← Word.ncard_eq_countP t.arity_le_word]
  congr 1
  ext x
  have hincluded : x &&& m = x ↔ Moebius.included x.toNat m.toNat = true := by
    rw [Moebius.included, beq_iff_eq, ← UInt64.toNat_and, UInt64.toNat_inj]
  rw [Set.mem_ofPred_eq, Set.mem_ofPred_eq, hincluded, Bool.and_eq_true]
  constructor
  · rintro ⟨hx, hout⟩
    have hlt : x.toNat < 2 ^ t.arity := by
      rw [← hincluded] at hx
      rw [← hx, UInt64.toNat_and]
      exact Nat.and_lt_two_pow _ hm
    rw [t.output_of_lt hlt] at hout
    exact ⟨hlt, hx, Except.ok.inj hout⟩
  · rintro ⟨hlt, hx, hlookup⟩
    rw [t.output_of_lt hlt, hlookup]
    exact ⟨hx, rfl⟩

theorem degree_normalFormBy_eq_arity_iff (htransform : Moebius.TransformsWords transform)
    (t : TruthTable) : (t.normalFormBy transform).degree = t.arity ↔ Odd t.weight := by
  have hcount : (List.range (2 ^ t.arity)).countP
      (fun x => Moebius.included x (Word.lowMask t.arity).toNat && t.lookup x) = t.weight := by
    rw [weight_eq_countP]
    apply List.countP_congr
    intro x hx
    rw [Moebius.included_lowMask t.arity_le_word (List.mem_range.1 hx), Bool.true_and]
  rw [← hcount, ← t.contains_normalFormBy_iff htransform (Word.toNat_lowMask_lt t.arity)]
  exact NormalForm.degree_eq_arity_iff _

/-- The coefficient of a monomial is the parity of the outputs at the inputs included in it, and the
degree is full exactly at odd weight, whatever transform of words small tables use. -/
theorem coefficients_eq_parities (htransform : Moebius.TransformsWords transform) (t : TruthTable) :
    (∀ m : Monomial, m.toNat < 2 ^ t.arity →
      ((t.normalFormBy transform).contains m = true ↔
        Odd {x : UInt64 | x &&& m = x ∧ t.output x.toNat = .ok true}.ncard)) ∧
    ((t.normalFormBy transform).degree = t.arity ↔ Odd t.weight) := by
  refine ⟨?_, t.degree_normalFormBy_eq_arity_iff htransform⟩
  intro m hm
  rw [t.ncard_included hm]
  exact t.contains_normalFormBy_iff htransform hm

/-- The table with ones at the inputs 1, 2 and 5 of three variables, as a small and a large one. -/
theorem coefficients_eq_parities_example :
    Moebius.TransformsWords Moebius.transformWord ∧
    (∃ t, SmallTable.ofWord 3 0x26 = .ok t ∧ (0b110 : Monomial).toNat < 2 ^ (small t).arity ∧
      (small t).normalForm.contains 0b110 = true ∧
      Odd {x : UInt64 | x &&& 0b110 = x ∧ (small t).output x.toNat = .ok true}.ncard ∧
      Odd (small t).weight ∧ (small t).normalForm.degree = 3) ∧
    ∃ u, LargeTable.ofPacked 3 0x26 = .ok u ∧ (0b101 : Monomial).toNat < 2 ^ (large u).arity ∧
      (large u).normalForm.contains 0b101 = false ∧
      ¬Odd {x : UInt64 | x &&& 0b101 = x ∧ (large u).output x.toNat = .ok true}.ncard ∧
      Odd (large u).weight ∧ (large u).normalForm.degree = 3 := by
  have htransform := Moebius.transformsWords_transformWord
  obtain ⟨t, ht, hta, htc, htw⟩ : ∃ t, SmallTable.ofWord 3 0x26 = .ok t ∧ (small t).arity = 3 ∧
      (small t).normalForm.contains 0b110 = true ∧ (small t).weight % 2 = 1 :=
    ⟨_, rfl, rfl, by decide, by decide +kernel⟩
  obtain ⟨u, hu, hua, huc, huw⟩ : ∃ u, LargeTable.ofPacked 3 0x26 = .ok u ∧ (large u).arity = 3 ∧
      (large u).normalForm.contains 0b101 = false ∧ (large u).weight % 2 = 1 :=
    ⟨_, rfl, rfl, by decide +kernel, by decide +kernel⟩
  have hmt : (0b110 : Monomial).toNat < 2 ^ (small t).arity := by rw [hta]; decide
  have hmu : (0b101 : Monomial).toNat < 2 ^ (large u).arity := by rw [hua]; decide
  obtain ⟨htm, htd⟩ := coefficients_eq_parities htransform (small t)
  obtain ⟨hum, hud⟩ := coefficients_eq_parities htransform (large u)
  have htw := Nat.odd_iff.2 htw
  have huw := Nat.odd_iff.2 huw
  refine ⟨htransform, ⟨t, ht, hmt, htc, (htm _ hmt).1 htc, htw, (htd.2 htw).trans hta⟩,
    u, hu, hmu, huc, ?_, huw, (hud.2 huw).trans hua⟩
  intro hodd
  exact Bool.false_ne_true (huc.symm.trans ((hum _ hmu).2 hodd))

end TruthTable

end Keystream
