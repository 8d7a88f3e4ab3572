import Keystream.Proofs.InnerProduct
import Keystream.Proofs.Streams

/-!
# The recurrence of a register

A register of length `n` runs through the sequence that starts with its fill and goes on by the sums
of the tapped entries among the last `n`. At every time the fill is a window of the sequence and the
output is the entry behind it. A register that has put out `n` bits is therefore made of them and
its taps.
-/

namespace Keystream.ShiftRegister

/-- The fill, and behind it the sums of the tapped entries among the last ones. -/
def sequence (r : ShiftRegister) (j : Nat) : Bool :=
  if j < r.length then r.fill.bit j
  else
    paritySum ((List.range r.length).filter r.taps.bit).attach fun i =>
      r.sequence (j - r.length + i)
termination_by j
decreasing_by
  have hi := List.mem_range.1 (List.mem_filter.1 i.property).1
  omega

theorem sequence_of_lt (r : ShiftRegister) {j : Nat} (hj : j < r.length) :
    r.sequence j = r.fill.bit j := by
  rw [sequence, if_pos hj]

theorem sequence_add (r : ShiftRegister) (k : Nat) :
    r.sequence (r.length + k) =
      paritySum ((List.range r.length).filter r.taps.bit) fun i => r.sequence (k + i) := by
  have hge : ¬ r.length + k < r.length := Nat.not_lt.2 (Nat.le_add_right _ _)
  rw [sequence, if_neg hge, Nat.add_sub_cancel_left]
  have hmap := paritySum_map Subtype.val ((List.range r.length).filter r.taps.bit).attach
    fun i => r.sequence (k + i)
  rw [List.attach_map_subtype_val] at hmap
  exact hmap.symm

theorem output_eq_paritySum (r : ShiftRegister) :
    r.output = paritySum ((List.range r.length).filter r.taps.bit) r.fill.bit := by
  rw [output, BitVector.dot_eq_paritySum r.length_taps.symm, paritySum_filter]
  simp only [Bool.and_comm, length]

theorem bit_fill_advance (r : ShiftRegister) (i : Nat) :
    r.advance.fill.bit i = if i + 1 = r.length then r.output else r.fill.bit (i + 1) :=
  BitVector.bit_slide r.fill r.output r.length_pos i

theorem output_of_window {r : ShiftRegister} {k : Nat}
    (h : ∀ i, i < r.length → (r.advanceBy k).fill.bit i = r.sequence (k + i)) :
    (r.advanceBy k).output = r.sequence (r.length + k) := by
  rw [output_eq_paritySum, length_advanceBy, taps_advanceBy, sequence_add]
  apply paritySum_congr
  intro i hi
  exact h i (List.mem_range.1 (List.mem_filter.1 hi).1)

/-- After `k` shifts the fill is the window of the sequence from `k` on. -/
theorem bit_fill_advanceBy (r : ShiftRegister) (k : Nat) {i : Nat} (hi : i < r.length) :
    (r.advanceBy k).fill.bit i = r.sequence (k + i) := by
  induction k generalizing i with
  | zero => rw [Nat.zero_add, r.sequence_of_lt hi, advanceBy_zero]
  | succ k ih =>
    have hnext : r.advanceBy (k + 1) = (r.advanceBy k).advance := r.advanceBy_add k 1
    rw [hnext, bit_fill_advance, length_advanceBy]
    -- The top bit is the output before this shift, every other one a bit of the window before it.
    split
    · next htop =>
      have hindex : r.length + k = k + 1 + i := by omega
      rw [output_of_window fun i hi => ih hi, hindex]
    · next htop =>
      have hindex : k + (i + 1) = k + 1 + i := by omega
      rw [ih (by omega), hindex]

theorem outputAt_eq_sequence (r : ShiftRegister) (k : Nat) :
    r.outputAt k = r.sequence (r.length + k) := by
  rw [outputAt_eq, output_of_window fun i hi => r.bit_fill_advanceBy k hi]

/-- Once enough bits have been put out, the fill is the last of them. -/
theorem toList_fill_advanceBy (r : ShiftRegister) {k : Nat} (hk : r.length ≤ k) :
    (r.advanceBy k).fill.toList = (r.outputs k).drop (k - r.length) := by
  apply List.ext_getElem?
  intro i
  have hlength : (r.advanceBy k).fill.length = r.length := r.length_advanceBy k
  rw [BitVector.getElem?_toList, hlength, List.getElem?_drop, outputs_eq_map, List.getElem?_map]
  split
  · next hi =>
    have hindex : r.length + (k - r.length + i) = k + i := by omega
    rw [List.getElem?_range (by omega), Option.map_some, r.bit_fill_advanceBy k hi,
      outputAt_eq_sequence, hindex]
  · next hi =>
    rw [List.getElem?_eq_none (by rw [List.length_range]; omega), Option.map_none]

theorem ext_fill {r s : ShiftRegister} (ht : r.taps = s.taps) (hf : r.fill = s.fill) : r = s := by
  obtain ⟨f, t, _, _⟩ := r
  obtain ⟨g, u, _, _⟩ := s
  obtain rfl : f = g := hf
  obtain rfl : t = u := ht
  rfl

/-- Registers of one length with the same taps that put out the same bits to fill them are the same
from then on, and so are their outputs. -/
theorem outputs_eq_of_outputs_eq {r s : ShiftRegister} (hl : r.length = s.length)
    (ht : r.taps = s.taps) (h : r.outputs r.length = s.outputs r.length) (m : Nat) :
    r.outputs m = s.outputs m := by
  have hafter : r.advanceBy r.length = s.advanceBy r.length := by
    apply ext_fill
    · rw [taps_advanceBy, taps_advanceBy, ht]
    · apply BitVector.ext_toList
      rw [r.toList_fill_advanceBy (Nat.le_refl _), s.toList_fill_advanceBy (Nat.le_of_eq hl.symm),
        h, hl]
  have hlong : r.outputs (m + r.length) = s.outputs (m + r.length) := by
    rw [Nat.add_comm, outputs_add, outputs_add, h, hafter]
  rw [← r.take_outputs m r.length, hlong, take_outputs]

/-- Shifting runs through the recurrence: its entries are put out one after another, the fill is a
window of it and taps and length stay. Hence the last outputs fill the register, and registers of
one length with the same taps that once put out the same bits to fill them do so ever after. -/
theorem runs_recurrence (r : ShiftRegister) :
    (∀ j, j < r.length → r.sequence j = r.fill.bit j) ∧
    (∀ k, r.sequence (r.length + k) =
      paritySum ((List.range r.length).filter r.taps.bit) fun i => r.sequence (k + i)) ∧
    (∀ k, (r.run k).2.shift.1 = r.sequence (r.length + k) ∧
      (r.run k).2.length = r.length ∧ (r.run k).2.taps = r.taps ∧
      ∀ i, i < r.length → (r.run k).2.fillAt i = .ok (r.sequence (k + i))) ∧
    (∀ k, r.length ≤ k → (r.run k).2.fill.toList = (r.run k).1.drop (k - r.length)) ∧
    ∀ s : ShiftRegister, s.length = r.length → s.taps = r.taps → ∀ j k,
      ((r.run j).2.run r.length).1 = ((s.run k).2.run r.length).1 →
      ∀ m, ((r.run j).2.run m).1 = ((s.run k).2.run m).1 := by
  simp only [run_eq]
  refine ⟨fun j => r.sequence_of_lt, r.sequence_add, ?_, fun k => r.toList_fill_advanceBy, ?_⟩
  · intro k
    refine ⟨?_, r.length_advanceBy k, r.taps_advanceBy k, ?_⟩
    · rw [shift_advanceBy, outputAt_eq_sequence]
    · intro i hi
      have hfill : i < (r.advanceBy k).fill.length :=
        Nat.lt_of_lt_of_eq hi (r.length_advanceBy k).symm
      rw [fillAt, BitVector.get, if_pos hfill, r.bit_fill_advanceBy k hi]
  · intro s hl ht j k h
    apply outputs_eq_of_outputs_eq
    · rw [length_advanceBy, length_advanceBy, hl]
    · rw [taps_advanceBy, taps_advanceBy, ht]
    · rwa [length_advanceBy]

/-- The register of the polynomial `x ^ 4 + x + 1`, and itself four shifts later. -/
theorem runs_recurrence_example :
    ∃ r s, ofVectors (.ofNat 4 0b0011) (.ofNat 4 0b0001) = .ok r ∧
      ofVectors (.ofNat 4 0b0011) (.ofNat 4 0b1001) = .ok s ∧
      (3 < r.length ∧ r.sequence 3 = r.fill.bit 3 ∧ (r.run 7).2.fillAt 3 = .ok (r.sequence 10)) ∧
      (r.length ≤ 6 ∧ (r.run 6).2.fill.toList = (r.run 6).1.drop 2) ∧
      s.length = r.length ∧ s.taps = r.taps ∧
      ((r.run 4).2.run 4).1 = ((s.run 0).2.run 4).1 ∧
      ((r.run 4).2.run 300).1 = ((s.run 0).2.run 300).1 := by
  obtain ⟨r, s, hr, hs, hlength, hl, ht, houtputs⟩ : ∃ r s,
      ofVectors (.ofNat 4 0b0011) (.ofNat 4 0b0001) = .ok r ∧
      ofVectors (.ofNat 4 0b0011) (.ofNat 4 0b1001) = .ok s ∧ r.length = 4 ∧
      s.length = r.length ∧ s.taps = r.taps ∧
      ((r.run 4).2.run 4).1 = ((s.run 0).2.run 4).1 :=
    ⟨_, _, rfl, rfl, rfl, rfl, rfl, by decide +kernel⟩
  obtain ⟨hstart, -, hwindow, hlast, hsame⟩ := runs_recurrence r
  have h3 : 3 < r.length := hlength.symm ▸ Nat.lt_succ_self 3
  have h6 : r.length ≤ 6 := by omega
  have hdrop := hlast 6 h6
  rw [hlength] at hdrop hsame
  exact ⟨r, s, hr, hs, ⟨h3, hstart 3 h3, (hwindow 7).2.2.2 3 h3⟩, ⟨h6, hdrop⟩, hl, ht, houtputs,
    hsame s (hl.trans hlength) ht 4 0 houtputs 300⟩

end Keystream.ShiftRegister
