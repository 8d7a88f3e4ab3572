import Keystream.Proofs.Invertibility
import Mathlib.Data.Finset.Card

/-!
# Periods of registers

A register has only as many fills as there are numbers of its length, so it soon comes back to a
fill that it has had, and from then on it repeats itself. With a tap at position 0 it comes back to
its first fill. A fill of zeros never changes, and with that tap it is never reached from another,
which leaves one fill less to run through.
-/

namespace Keystream.ShiftRegister

section Repetition

variable (r : ShiftRegister)

theorem toNat_fill_advanceBy_lt (k : Nat) : (r.advanceBy k).fill.toNat < 2 ^ r.length := by
  have hlt := (r.advanceBy k).fill.toNat_lt
  rwa [show (r.advanceBy k).fill.length = r.length from r.length_advanceBy k] at hlt

theorem advanceBy_eq_of_toNat {i j : Nat}
    (h : (r.advanceBy i).fill.toNat = (r.advanceBy j).fill.toNat) :
    r.advanceBy i = r.advanceBy j := by
  apply ext_fill
  · rw [taps_advanceBy, taps_advanceBy]
  · exact BitVector.ext_toNat ((r.length_advanceBy i).trans (r.length_advanceBy j).symm) h

/-- If all fills are among some numbers, one of them has come back after as many shifts. -/
theorem exists_return (fills : Finset Nat) (h : ∀ k, (r.advanceBy k).fill.toNat ∈ fills) :
    ∃ i p, 0 < p ∧ i + p ≤ fills.card ∧ r.advanceBy (i + p) = r.advanceBy i := by
  have hcard : fills.card < (Finset.range (fills.card + 1)).card := by
    rw [Finset.card_range]
    exact Nat.lt_succ_self _
  obtain ⟨i, hi, j, hj, hne, heq⟩ :=
    Finset.exists_ne_map_eq_of_card_lt_of_maps_to hcard fun k _ => h k
  have hsame := r.advanceBy_eq_of_toNat heq
  rw [Finset.mem_range] at hi hj
  rcases Nat.lt_or_gt_of_ne hne with hlt | hgt
  · refine ⟨i, j - i, by omega, by omega, ?_⟩
    rw [Nat.add_sub_of_le (Nat.le_of_lt hlt), hsame]
  · refine ⟨j, i - j, by omega, by omega, ?_⟩
    rw [Nat.add_sub_of_le (Nat.le_of_lt hgt), hsame]

variable {r}

theorem advanceBy_add_eq {i j : Nat} (h : r.advanceBy i = r.advanceBy j) (k : Nat) :
    r.advanceBy (i + k) = r.advanceBy (j + k) := by
  rw [advanceBy_add, advanceBy_add, h]

/-- With a tap at position 0 the shifts before a repetition can be undone. -/
theorem advanceBy_of_return (h₀ : r.taps.bit 0 = true) {i p : Nat}
    (h : r.advanceBy (i + p) = r.advanceBy i) : r.advanceBy p = r := by
  rw [Nat.add_comm, advanceBy_add] at h
  have ht : (r.advanceBy p).taps = r.taps := r.taps_advanceBy p
  exact ext_fill ht (fill_eq_of_advanceBy ht (ht ▸ h₀) (congrArg fill h))

end Repetition

section Zeros

variable {r : ShiftRegister}

theorem output_of_zeros (h : r.fill = .zeros r.length) : r.output = false := by
  rw [output_eq_paritySum, h, paritySum_congr fun i _ => BitVector.bit_zeros r.length i,
    paritySum_false]

theorem advance_of_zeros (h : r.fill = .zeros r.length) : r.advance = r := by
  apply ext_fill r.taps_advance
  apply BitVector.ext_bit r.length_advance
  intro i _
  rw [bit_fill_advance, output_of_zeros h, h, BitVector.bit_zeros, BitVector.bit_zeros, ite_self]

theorem advanceBy_of_zeros (h : r.fill = .zeros r.length) (k : Nat) : r.advanceBy k = r := by
  induction k with
  | zero => rfl
  | succ k ih => rw [advanceBy_succ, advance_of_zeros h, ih]

theorem outputs_of_zeros (h : r.fill = .zeros r.length) (k : Nat) :
    r.outputs k = List.replicate k false := by
  induction k with
  | zero => rfl
  | succ k ih =>
    rw [outputs_succ, advance_of_zeros h, ih, output_of_zeros h, List.replicate_succ]

/-- The register with a fill of zeros. -/
def emptied (r : ShiftRegister) : ShiftRegister :=
  r.replace .fill (.zeros r.length) rfl

/-- With a tap at position 0 only the fill of zeros leads to a fill of zeros. -/
theorem fill_ne_zeros_of_advanceBy (h₀ : r.taps.bit 0 = true) (h : r.fill ≠ .zeros r.length)
    (k : Nat) : (r.advanceBy k).fill ≠ .zeros r.length := by
  intro hk
  have hempty : (r.emptied.advanceBy k).fill = .zeros r.length := by
    rw [advanceBy_of_zeros rfl]
    rfl
  exact h (fill_eq_of_advanceBy (s := r.emptied) rfl h₀ (hk.trans hempty.symm))

theorem toNat_fill_ne_zero (h₀ : r.taps.bit 0 = true) (h : r.fill ≠ .zeros r.length) (k : Nat) :
    (r.advanceBy k).fill.toNat ≠ 0 := by
  intro hk
  apply fill_ne_zeros_of_advanceBy h₀ h k
  have hl : (r.advanceBy k).fill.length = (BitVector.zeros r.length).length := r.length_advanceBy k
  apply BitVector.ext_toNat hl
  rw [hk, BitVector.toNat_zeros]

end Zeros

theorem exists_repetition (r : ShiftRegister) :
    ∃ i p, 0 < p ∧ i + p ≤ 2 ^ r.length ∧ r.advanceBy (i + p) = r.advanceBy i := by
  have h := r.exists_return (Finset.range (2 ^ r.length)) fun k =>
    Finset.mem_range.2 (r.toNat_fill_advanceBy_lt k)
  rwa [Finset.card_range] at h

theorem exists_repetition_of_ne_zeros {r : ShiftRegister} (h₀ : r.taps.bit 0 = true)
    (h : r.fill ≠ .zeros r.length) :
    ∃ i p, 0 < p ∧ i + p ≤ 2 ^ r.length - 1 ∧ r.advanceBy (i + p) = r.advanceBy i := by
  have hreturn := r.exists_return ((Finset.range (2 ^ r.length)).erase 0) fun k =>
    Finset.mem_erase.2
      ⟨toNat_fill_ne_zero h₀ h k, Finset.mem_range.2 (r.toNat_fill_advanceBy_lt k)⟩
  rwa [Finset.card_erase_of_mem (Finset.mem_range.2 (Nat.two_pow_pos r.length)),
    Finset.card_range] at hreturn

/-- With a tap at position 0 some number of shifts brings a register back to where it is. -/
theorem exists_period {r : ShiftRegister} (h₀ : r.taps.bit 0 = true) :
    ∃ p, 0 < p ∧ p ≤ 2 ^ r.length ∧ (r.fill ≠ .zeros r.length → p ≤ 2 ^ r.length - 1) ∧
      r.advanceBy p = r := by
  by_cases h : r.fill = .zeros r.length
  · exact ⟨1, Nat.one_pos, Nat.two_pow_pos r.length, fun hne => absurd h hne,
      advanceBy_of_zeros h 1⟩
  · obtain ⟨i, p, hp, hle, hreturn⟩ := exists_repetition_of_ne_zeros h₀ h
    exact ⟨p, hp, by omega, fun _ => by omega, advanceBy_of_return h₀ hreturn⟩

/-- Every register comes to repeat itself within as many shifts as it has fills. With a tap at
position 0 it repeats itself from the start, sooner by one if it is not empty, and never becomes
empty. An empty one stays so and puts out zeros. -/
theorem runs_repeat (r : ShiftRegister) :
    (∃ i j, i < j ∧ j ≤ 2 ^ r.length ∧ ∀ k,
      (r.run (i + k)).2.fill = (r.run (j + k)).2.fill ∧
      ∀ m, ((r.run (i + k)).2.run m).1 = ((r.run (j + k)).2.run m).1) ∧
    (r.taps.bit 0 = true →
      (∃ p, 1 ≤ p ∧ p ≤ 2 ^ r.length ∧ (r.fill ≠ .zeros r.length → p ≤ 2 ^ r.length - 1) ∧
        (r.run p).2.fill = r.fill ∧
        ∀ k, (r.run (p + k)).2 = (r.run k).2 ∧ r.outputAt (p + k) = r.outputAt k) ∧
      (r.fill ≠ .zeros r.length → ∀ k, (r.run k).2.fill ≠ .zeros r.length)) ∧
    (r.fill = .zeros r.length → ∀ k,
      (r.run k).2.fill = .zeros r.length ∧ (r.run k).1 = List.replicate k false) := by
  simp only [run_eq]
  refine ⟨?_, fun h₀ => ⟨?_, fill_ne_zeros_of_advanceBy h₀⟩, ?_⟩
  · obtain ⟨i, p, hp, hle, hreturn⟩ := r.exists_repetition
    refine ⟨i, i + p, by omega, hle, fun k => ?_⟩
    have hsame := advanceBy_add_eq hreturn.symm k
    exact ⟨congrArg fill hsame, fun m => by rw [hsame]⟩
  · obtain ⟨p, hp, hle, hlt, hperiod⟩ := exists_period h₀
    refine ⟨p, hp, hle, hlt, congrArg fill hperiod, fun k => ⟨?_, ?_⟩⟩
    · rw [advanceBy_add, hperiod]
    · rw [outputAt_add, hperiod]
  · intro h k
    rw [advanceBy_of_zeros h]
    exact ⟨h, outputs_of_zeros h k⟩

/-- A register of four bits with position 0 tapped, and an empty one that is longer than a word. -/
theorem runs_repeat_example :
    ∃ r z, ofVectors (.ofNat 4 0b0011) (.ofNat 4 0b0001) = .ok r ∧
      ofVectors (.ofNat 65 0x10000000000000001) (.zeros 65) = .ok z ∧
      (r.taps.bit 0 = true ∧ r.fill ≠ .zeros r.length ∧
        (∃ p, 1 ≤ p ∧ p ≤ 2 ^ r.length - 1 ∧ (r.run p).2.fill = r.fill) ∧
        (r.run 1000).2.fill ≠ .zeros r.length) ∧
      z.fill = .zeros z.length ∧ (z.run 1000).1 = List.replicate 1000 false := by
  obtain ⟨r, z, hr, hz, h₀, hne, hzeros⟩ : ∃ r z,
      ofVectors (.ofNat 4 0b0011) (.ofNat 4 0b0001) = .ok r ∧
      ofVectors (.ofNat 65 0x10000000000000001) (.zeros 65) = .ok z ∧
      r.taps.bit 0 = true ∧ r.fill ≠ .zeros r.length ∧ z.fill = .zeros z.length :=
    ⟨_, _, rfl, rfl, by decide, by decide, rfl⟩
  obtain ⟨-, htapped, -⟩ := runs_repeat r
  obtain ⟨⟨p, hp, -, hlt, hreturn, -⟩, hnever⟩ := htapped h₀
  obtain ⟨-, -, hempty⟩ := runs_repeat z
  exact ⟨r, z, hr, hz, ⟨h₀, hne, ⟨p, hp, hlt hne, hreturn⟩, hnever hne 1000⟩, hzeros,
    (hempty hzeros 1000).2⟩

end Keystream.ShiftRegister
