import Keystream.Proofs.Recurrence
import Keystream.ShiftRegister.Setters

/-!
# When shifting can be undone

The output of a register is the first bit of its fill, if position 0 is tapped, added to a sum over
the other bits, which a shift keeps. With position 0 tapped the bit that a shift drops can be had
back from the bit that it writes, so no two fills ever meet; without, the dropped bit leaves no
trace.
-/

namespace Keystream.ShiftRegister

/-- What the bits behind the first one add to the output. -/
def others (r : ShiftRegister) : Bool :=
  paritySum (List.range (r.length - 1)) fun i => r.fill.bit (i + 1) && r.taps.bit (i + 1)

theorem output_eq_xor_others (r : ShiftRegister) :
    r.output = ((r.fill.bit 0 && r.taps.bit 0) ^^ r.others) := by
  have hlength : r.fill.length = r.length - 1 + 1 := (Nat.sub_add_cancel r.length_pos).symm
  rw [output, BitVector.dot_eq_paritySum r.length_taps.symm, hlength, List.range_succ_eq_map,
    paritySum_cons, paritySum_map, others]

/-- Registers with the same taps, whose fills agree behind the first bit. -/
structure AgreeBehind (r s : ShiftRegister) : Prop where
  taps_eq : r.taps = s.taps
  bit_eq : ∀ i, 0 < i → i < r.length → r.fill.bit i = s.fill.bit i

section Agreement

variable {r s : ShiftRegister}

theorem length_eq_of_taps (ht : r.taps = s.taps) : r.length = s.length := by
  rw [← r.length_part .taps, ← s.length_part .taps, part, part, ht]

theorem AgreeBehind.others_eq (h : AgreeBehind r s) : r.others = s.others := by
  rw [others, others, ← length_eq_of_taps h.taps_eq, ← h.taps_eq]
  apply paritySum_congr
  intro i hi
  have hlt : i + 1 < r.length := by
    have := List.mem_range.1 hi
    omega
  rw [h.bit_eq (i + 1) (Nat.succ_pos i) hlt]

theorem AgreeBehind.fill_eq (h : AgreeBehind r s) (hfirst : r.fill.bit 0 = s.fill.bit 0) :
    r.fill = s.fill := by
  apply BitVector.ext_bit (length_eq_of_taps h.taps_eq)
  intro i hi
  rcases Nat.eq_zero_or_pos i with rfl | hpos
  · exact hfirst
  · exact h.bit_eq i hpos hi

/-- Without a tap at position 0 the first bit of the fill is lost. -/
theorem AgreeBehind.shift_eq (h : AgreeBehind r s) (ht : r.taps.bit 0 = false) :
    r.shift = s.shift := by
  have hl := length_eq_of_taps h.taps_eq
  have houtput : r.output = s.output := by
    rw [output_eq_xor_others, output_eq_xor_others, h.others_eq, ← h.taps_eq, ht, Bool.and_false,
      Bool.and_false]
  have hfill : r.advance.fill = s.advance.fill := by
    have hlength : r.advance.fill.length = s.advance.fill.length := hl
    apply BitVector.ext_bit hlength
    intro i hi
    change i < r.length at hi
    rw [bit_fill_advance, bit_fill_advance, ← hl, houtput]
    split
    · rfl
    · exact h.bit_eq (i + 1) (Nat.succ_pos i) (by omega)
  have hadvance : r.advance = s.advance := ext_fill h.taps_eq hfill
  rw [shift, shift, houtput, hadvance]

variable (ht : r.taps = s.taps)

include ht in
theorem agreeBehind_of_advance (h : r.advance.fill = s.advance.fill) : AgreeBehind r s where
  taps_eq := ht
  bit_eq i hpos hi := by
    have hl := length_eq_of_taps ht
    have hbit := congrArg (BitVector.bit · (i - 1)) h
    rw [bit_fill_advance, bit_fill_advance, Nat.sub_add_cancel hpos, if_neg (Nat.ne_of_lt hi),
      if_neg (Nat.ne_of_lt (hl ▸ hi))] at hbit
    exact hbit

include ht in
theorem output_eq_of_advance (h : r.advance.fill = s.advance.fill) : r.output = s.output := by
  have hl := length_eq_of_taps ht
  have htop : r.length - 1 + 1 = r.length := Nat.sub_add_cancel r.length_pos
  have hbit := congrArg (BitVector.bit · (r.length - 1)) h
  rwa [bit_fill_advance, bit_fill_advance, htop, if_pos rfl, if_pos hl] at hbit

include ht in
/-- With a tap at position 0 the dropped bit is the output without the sum of the others. -/
theorem fill_eq_of_advance (h₀ : r.taps.bit 0 = true) (h : r.advance.fill = s.advance.fill) :
    r.fill = s.fill := by
  have hagree := agreeBehind_of_advance ht h
  have hsum := output_eq_of_advance ht h
  rw [output_eq_xor_others, output_eq_xor_others, hagree.others_eq, ← ht, h₀, Bool.and_true,
    Bool.and_true] at hsum
  exact hagree.fill_eq (Bool.xor_left_inj.1 hsum)

include ht in
theorem fill_eq_of_advanceBy (h₀ : r.taps.bit 0 = true) {k : Nat}
    (h : (r.advanceBy k).fill = (s.advanceBy k).fill) : r.fill = s.fill := by
  induction k generalizing r s with
  | zero => exact h
  | succ k ih =>
    have hadvance : r.advance.fill = s.advance.fill := ih (r := r.advance) (s := s.advance) ht h₀ h
    exact fill_eq_of_advance ht h₀ hadvance

end Agreement

/-- The register with the first bit of its fill the other way round. -/
def flipFirst (r : ShiftRegister) : ShiftRegister :=
  r.replace .fill (r.fill.put 0 (!r.fill.bit 0) r.length_pos) rfl

theorem bit_fill_flipFirst (r : ShiftRegister) (i : Nat) :
    r.flipFirst.fill.bit i = if i = 0 then !r.fill.bit 0 else r.fill.bit i :=
  BitVector.bit_put r.fill 0 _ r.length_pos i

theorem fill_ne_flipFirst (r : ShiftRegister) : r.fill ≠ r.flipFirst.fill := by
  intro h
  have hbit := r.bit_fill_flipFirst 0
  rw [← h, if_pos rfl] at hbit
  exact (Bool.eq_not_self _).1 hbit

theorem agreeBehind_flipFirst (r : ShiftRegister) : AgreeBehind r r.flipFirst where
  taps_eq := rfl
  bit_eq i hpos _ := by rw [bit_fill_flipFirst, if_neg (Nat.ne_of_gt hpos)]

theorem exists_of_taps {taps : BitVector} (hpos : 0 < taps.length) :
    ∃ r : ShiftRegister, r.taps = taps :=
  ⟨⟨.zeros taps.length, taps, rfl, hpos⟩, rfl⟩

/-- Whether one shift tells all fills apart is decided by the tap at position 0. With it, fills stay
apart through any number of shifts and are determined by as many outputs as they have bits. Without
it, fills that differ in their first bit alone give one output and one fill. -/
theorem invertible_iff_first_tapped {taps : BitVector} (hpos : 0 < taps.length) :
    (taps.bit 0 = true ↔
      ∀ r s : ShiftRegister, r.taps = taps → s.taps = taps →
        r.shift.2.fill = s.shift.2.fill → r.fill = s.fill) ∧
    (taps.bit 0 = true → ∀ r s : ShiftRegister, r.taps = taps → s.taps = taps →
      (r.fill ≠ s.fill → ∀ k, (r.run k).2.fill ≠ (s.run k).2.fill) ∧
      ((r.run taps.length).1 = (s.run taps.length).1 → r.fill = s.fill)) ∧
    (taps.bit 0 = false → ∀ r : ShiftRegister, r.taps = taps →
      (∀ s : ShiftRegister, s.taps = taps → (∀ i, 0 < i → i < taps.length →
          r.fill.bit i = s.fill.bit i) →
        r.shift.1 = s.shift.1 ∧ r.shift.2.fill = s.shift.2.fill) ∧
      ∃ s : ShiftRegister, s.taps = taps ∧ s.fill.bit 0 ≠ r.fill.bit 0 ∧
        (∀ i, 0 < i → r.fill.bit i = s.fill.bit i) ∧ r.shift = s.shift) := by
  have hlost : taps.bit 0 = false → ∀ r : ShiftRegister, r.taps = taps →
      r.shift = r.flipFirst.shift := by
    rintro h₀ r rfl
    exact r.agreeBehind_flipFirst.shift_eq h₀
  refine ⟨⟨?_, ?_⟩, ?_, ?_⟩
  · rintro h₀ r s rfl hs h
    exact fill_eq_of_advance hs.symm h₀ h
  · intro hinj
    obtain ⟨r, hr⟩ := exists_of_taps hpos
    rw [← Bool.not_eq_false]
    intro h₀
    have hshift := congrArg (fun e => e.2.fill) (hlost h₀ r hr)
    exact r.fill_ne_flipFirst (hinj r r.flipFirst hr hr hshift)
  · rintro h₀ r s rfl hs
    simp only [run_eq]
    constructor
    · intro hne k h
      exact hne (fill_eq_of_advanceBy hs.symm h₀ h)
    · intro h
      have hr : r.length = r.taps.length := r.length_taps.symm
      have hl : s.length = r.taps.length := (length_eq_of_taps hs).trans hr
      apply fill_eq_of_advanceBy hs.symm h₀ (k := r.taps.length)
      -- As many shifts as the register is long leave nothing in it but the outputs.
      apply BitVector.ext_toList
      rw [r.toList_fill_advanceBy (Nat.le_of_eq hr), s.toList_fill_advanceBy (Nat.le_of_eq hl), h,
        hr, hl]
  · rintro h₀ r rfl
    constructor
    · intro s hs hbits
      have hagree : AgreeBehind r s := ⟨hs.symm, fun i hi hlt => hbits i hi (r.length_taps ▸ hlt)⟩
      rw [hagree.shift_eq h₀]
      exact ⟨rfl, rfl⟩
    · refine ⟨r.flipFirst, rfl, ?_, ?_, hlost h₀ r rfl⟩
      · rw [bit_fill_flipFirst, if_pos rfl]
        exact fun h => (Bool.not_eq_self _).1 h
      · intro i hi
        rw [bit_fill_flipFirst, if_neg (Nat.ne_of_gt hi)]

/-- Two fills of a register of 65 bits, more than a word, with position 0 tapped; and two fills of
four bits that differ in the first one, which is not tapped. -/
theorem invertible_iff_first_tapped_example :
    ∃ r s q p, ofVectors (.ofNat 65 0x10000000000000001) (.ofNat 65 0b01) = .ok r ∧
      ofVectors (.ofNat 65 0x10000000000000001) (.ofNat 65 0b10) = .ok s ∧
      ofVectors (.ofNat 4 0b0110) (.ofNat 4 0b1000) = .ok q ∧
      ofVectors (.ofNat 4 0b0110) (.ofNat 4 0b1001) = .ok p ∧
      (0 < r.taps.length ∧ r.taps.bit 0 = true ∧ s.taps = r.taps ∧ r.fill ≠ s.fill ∧
        (r.run 1000).2.fill ≠ (s.run 1000).2.fill ∧
        (r.run r.taps.length).1 ≠ (s.run r.taps.length).1) ∧
      (0 < q.taps.length ∧ q.taps.bit 0 = false ∧ p.taps = q.taps ∧
        (∀ i, 0 < i → i < q.taps.length → q.fill.bit i = p.fill.bit i) ∧
        q.shift.1 = p.shift.1 ∧ q.shift.2.fill = p.shift.2.fill) := by
  obtain ⟨r, s, hr, hs, hrpos, hr₀, hrs, hne⟩ : ∃ r s,
      ofVectors (.ofNat 65 0x10000000000000001) (.ofNat 65 0b01) = .ok r ∧
      ofVectors (.ofNat 65 0x10000000000000001) (.ofNat 65 0b10) = .ok s ∧
      0 < r.taps.length ∧ r.taps.bit 0 = true ∧ s.taps = r.taps ∧ r.fill ≠ s.fill :=
    ⟨_, _, rfl, rfl, by decide, by decide, rfl, by decide⟩
  obtain ⟨q, p, hq, hp, hlength, hq₀, hqp, hbehind⟩ : ∃ q p,
      ofVectors (.ofNat 4 0b0110) (.ofNat 4 0b1000) = .ok q ∧
      ofVectors (.ofNat 4 0b0110) (.ofNat 4 0b1001) = .ok p ∧
      q.taps.length = 4 ∧ q.taps.bit 0 = false ∧ p.taps = q.taps ∧
      ∀ i, i < 4 → 0 < i → q.fill.bit i = p.fill.bit i :=
    ⟨_, _, rfl, rfl, rfl, by decide, rfl, by decide⟩
  have hqpos : 0 < q.taps.length := by omega
  have hbits : ∀ i, 0 < i → i < q.taps.length → q.fill.bit i = p.fill.bit i :=
    fun i hpos hi => hbehind i (hlength ▸ hi) hpos
  obtain ⟨-, htapped, -⟩ := invertible_iff_first_tapped hrpos
  obtain ⟨hapart, houtputs⟩ := htapped hr₀ r s rfl hrs
  obtain ⟨-, -, huntapped⟩ := invertible_iff_first_tapped hqpos
  obtain ⟨hmeet, -⟩ := huntapped hq₀ q rfl
  exact ⟨r, s, q, p, hr, hs, hq, hp,
    ⟨hrpos, hr₀, hrs, hne, hapart hne 1000, fun h => hne (houtputs h)⟩,
    ⟨hqpos, hq₀, hqp, hbits, hmeet p hqp hbits⟩⟩

end Keystream.ShiftRegister
