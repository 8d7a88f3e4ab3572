import Keystream.Proofs.Sources

/-!
# Tables as one word

The packed outputs are given as a word if they are no greater than one. For at most six variables
they never are, and the table is made from the word again. For more variables it depends on where
the ones of the table lie, and no table is made from the word.
-/

namespace Keystream.TruthTable

section Table

variable {t : TruthTable}

theorem output_eq_true_iff {x : Nat} : t.output x = .ok true ↔ t.packed.testBit x = true := by
  rw [← lookup_eq_testBit]
  rcases Nat.lt_or_ge x (2 ^ t.arity) with hx | hx
  · rw [t.output_of_lt hx, Except.ok.injEq]
  · rw [t.output_of_le hx, t.lookup_of_le hx]
    exact iff_of_false (by rintro ⟨⟩) Bool.false_ne_true

theorem toWord?_eq_some_iff {v : UInt64} : t.toWord? = some v ↔ v.toNat = t.packed := by
  unfold toWord?
  split
  · next h =>
    rw [Option.some_inj, ← UInt64.toNat_inj, UInt64.toNat_ofNat',
      Nat.mod_eq_of_lt (Bits.fits_iff.1 h), eq_comm]
  · next h =>
    refine iff_of_false (by rintro ⟨⟩) ?_
    intro hv
    exact h (Bits.fits_iff.2 (hv ▸ v.toNat_lt))

/-- Only a one beyond the bits of a word keeps the outputs from being one. -/
theorem toWord?_eq_none_iff : t.toWord? = none ↔ ∃ x, 64 ≤ x ∧ t.output x = .ok true := by
  simp only [output_eq_true_iff]
  unfold toWord?
  split
  · next h =>
    refine iff_of_false (by rintro ⟨⟩) ?_
    rintro ⟨x, hx, hbit⟩
    rw [Bits.testBit_of_le (Bits.fits_iff.1 h) hx] at hbit
    cases hbit
  · next h =>
    refine iff_of_true rfl ?_
    have hle : 2 ^ (64 : Nat) ≤ t.packed := Nat.le_of_not_lt fun hlt => h (Bits.fits_iff.2 hlt)
    exact Nat.exists_ge_and_testBit_of_ge_two_pow hle

theorem exists_toWord? (h : t.arity ≤ 6) : ∃ v, t.toWord? = some v :=
  ⟨UInt64.ofNat t.packed, toWord?_eq_some_iff.2 (toNat_ofNat_of_arity_le h t.packed_lt)⟩

theorem output_of_toWord? {v : UInt64} (hv : t.toWord? = some v) {x : Nat} (hx : x < 2 ^ t.arity) :
    t.output x = .ok (Word.bit v x) := by
  rw [t.output_of_lt hx, lookup_eq_testBit, ← toWord?_eq_some_iff.1 hv]
  rfl

theorem ofWord_of_toWord? (hc : t.Canonical t.arity t.packed) (hle : t.arity ≤ 6) {v : UInt64}
    (hv : t.toWord? = some v) : ofWord t.arity v = .ok t := by
  have hpacked := toWord?_eq_some_iff.1 hv
  obtain ⟨u, hu, hcu⟩ := exists_ofWord t.arity_pos hle (hpacked.symm ▸ t.packed_lt)
  rw [hpacked] at hcu
  rw [hu, hcu.unique hc]

end Table

theorem ofWord_of_lt {arity : Nat} (h : 6 < arity) (w : UInt64) :
    ofWord arity w = .error (.tooManyVariables 6) := by
  have hpos : arity ≠ 0 := Nat.ne_of_gt (Nat.lt_of_le_of_lt (Nat.zero_le 6) h)
  rw [ofWord, SmallTable.ofWord, dif_neg hpos, dif_pos h]
  rfl

/-- A table that has been made has a word unless some output beyond the first 64 is one. The word
holds the first outputs, and the table is made from it again exactly for at most six variables. So
the word is there for at most six variables and then decodes, but for more variables it is missing
only where a one lies beyond it. -/
theorem word_view_decodes {s : Source} {t : TruthTable} (h : s.build = .ok t) :
    (t.arity ≤ 6 → ∃ v, t.toWord? = some v) ∧
    (t.toWord? = none ↔ ∃ x, 64 ≤ x ∧ t.output x = .ok true) ∧
    (∀ v, t.toWord? = some v →
      (∀ x, x < 2 ^ t.arity → t.output x = .ok (Word.bit v x)) ∧
      ofWord t.arity v = if t.arity ≤ 6 then .ok t else .error (.tooManyVariables 6)) ∧
    ((6 < t.arity → ∃ x, 64 ≤ x ∧ t.output x = .ok true) →
      ((∃ v, t.toWord? = some v) ↔ t.arity ≤ 6) ∧
      ∀ v, t.toWord? = some v → ofWord t.arity v = .ok t) := by
  have hc := canonical_of_buildBy h
  refine ⟨exists_toWord?, toWord?_eq_none_iff, ?_, ?_⟩
  · intro v hv
    refine ⟨fun x => output_of_toWord? hv, ?_⟩
    split
    · next hle => exact ofWord_of_toWord? hc hle hv
    · next hlt => exact ofWord_of_lt (Nat.lt_of_not_le hlt) v
  · intro hones
    have hle : ∀ v, t.toWord? = some v → t.arity ≤ 6 := by
      intro v hv
      apply Nat.le_of_not_lt
      intro hlt
      rw [toWord?_eq_none_iff.2 (hones hlt)] at hv
      cases hv
    refine ⟨⟨?_, exists_toWord?⟩, ?_⟩
    · rintro ⟨v, hv⟩
      exact hle v hv
    · intro v hv
      exact ofWord_of_toWord? hc (hle v hv) hv

/-- Six variables with ones throughout; seven variables with a one at input 100; and seven variables
with ones at inputs 0 and 63 only, whose word is no table of them. -/
theorem word_view_decodes_example :
    (∃ t, (Source.constant 6 true).build = .ok t ∧ t.toWord? = some 0xffffffffffffffff ∧
      ofWord 6 0xffffffffffffffff = .ok t) ∧
    (∃ t, (Source.packed 7 (2 ^ (100 : Nat))).build = .ok t ∧ t.output 100 = .ok true ∧
      t.toWord? = none ∧ ¬ t.arity ≤ 6) ∧
    ∃ t, (Source.packed 7 0x8000000000000001).build = .ok t ∧
      t.toWord? = some 0x8000000000000001 ∧ t.output 63 = .ok (Word.bit 0x8000000000000001 63) ∧
      ofWord 7 0x8000000000000001 = .error (.tooManyVariables 6) := by
  obtain ⟨t, ht, hta, htv⟩ : ∃ t, (Source.constant 6 true).build = .ok t ∧ t.arity = 6 ∧
      t.toWord? = some 0xffffffffffffffff := ⟨_, rfl, rfl, by decide +kernel⟩
  obtain ⟨u, hu, hua, huone⟩ : ∃ u, (Source.packed 7 (2 ^ (100 : Nat))).build = .ok u ∧
      u.arity = 7 ∧ u.output 100 = .ok true := ⟨_, rfl, rfl, by decide +kernel⟩
  obtain ⟨w, hw, hwa, hwv⟩ : ∃ w, (Source.packed 7 0x8000000000000001).build = .ok w ∧
      w.arity = 7 ∧ w.toWord? = some 0x8000000000000001 := ⟨_, rfl, rfl, by decide +kernel⟩
  obtain ⟨-, -, htword, -⟩ := word_view_decodes ht
  obtain ⟨-, hunone, -, hucond⟩ := word_view_decodes hu
  obtain ⟨-, -, hwword, -⟩ := word_view_decodes hw
  have hone : ∃ x, 64 ≤ x ∧ u.output x = .ok true := ⟨100, by decide, huone⟩
  have hnone := hunone.2 hone
  have hseven : ¬ u.arity ≤ 6 := by
    intro hle
    obtain ⟨v, hv⟩ := (hucond fun _ => hone).1.2 hle
    rw [hnone] at hv
    cases hv
  have htable := (htword _ htv).2
  obtain ⟨hfirst, herror⟩ := hwword _ hwv
  rw [hta, if_pos (by decide)] at htable
  rw [hwa, if_neg (by decide)] at herror
  exact ⟨⟨t, ht, htv, htable⟩, ⟨u, hu, huone, hnone, hseven⟩, w, hw, hwv,
    hfirst 63 (hwa ▸ by decide), herror⟩

/-- The word of a table need not decode: the constant zero of seven variables has one. -/
theorem word_view_of_seven :
    ¬ ∀ (s : Source) (t : TruthTable), s.build = .ok t →
      ((∃ v, t.toWord? = some v) ↔ t.arity ≤ 6) ∧
      ∀ v, t.toWord? = some v → ofWord t.arity v = .ok t := by
  intro h
  obtain ⟨t, ht, harity, hv⟩ : ∃ t, (Source.constant 7 false).build = .ok t ∧ t.arity = 7 ∧
      t.toWord? = some 0 := ⟨_, rfl, rfl, rfl⟩
  have hle := (h _ t ht).1.1 ⟨0, hv⟩
  rw [harity] at hle
  exact absurd hle (by decide)

end Keystream.TruthTable
