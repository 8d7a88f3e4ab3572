import Keystream.Proofs.Invertibility
import Keystream.Proofs.Settings

/-!
# Sums of registers

Registers with the same taps add up: where the fill of one is the sum modulo two of the fills of two
others, its output is the sum of theirs, and the shift keeps this. So its whole stream is the sum of
their streams.
-/

namespace Keystream

namespace BitVector

/-- The sum modulo two of vectors of one length, bit by bit. -/
def sum (x y : BitVector) : BitVector :=
  ofBits (List.zipWith (· ^^ ·) x.toList y.toList)

section Sum

variable {x y : BitVector} (h : x.length = y.length)
include h

theorem length_sum : (x.sum y).length = x.length := by
  rw [sum, length_ofBits, List.length_zipWith, length_toList, length_toList, ← h, Nat.min_self]

theorem bit_sum (i : Nat) : (x.sum y).bit i = (x.bit i ^^ y.bit i) := by
  rw [sum, bit_ofBits, List.getElem?_zipWith, getElem?_toList, getElem?_toList, ← h]
  by_cases hi : i < x.length
  · rw [if_pos hi, if_pos hi]
    rfl
  · rw [if_neg hi, if_neg hi, bit_of_le (Nat.le_of_not_lt hi),
      bit_of_le (Nat.le_of_not_lt (h ▸ hi))]
    rfl

/-- The bits of a sum at the ones of a vector add up to those of both vectors. -/
theorem dot_sum {z : BitVector} (hz : x.length = z.length) :
    (x.sum y).dot z = (x.dot z ^^ y.dot z) := by
  rw [dot_eq_paritySum ((length_sum h).trans hz), dot_eq_paritySum hz,
    dot_eq_paritySum (h.symm.trans hz), length_sum h, ← h, ← paritySum_xor]
  apply paritySum_congr
  intro i _
  rw [bit_sum h, Bool.and_xor_distrib_right]

end Sum

end BitVector

namespace ShiftRegister

/-- Three registers with the same taps, the fill of the last being the sum of the others. -/
structure Superposed (r s u : ShiftRegister) : Prop where
  taps_left : r.taps = u.taps
  taps_right : s.taps = u.taps
  fill_eq : u.fill = r.fill.sum s.fill

section Superposed

variable {r s u : ShiftRegister} (h : Superposed r s u)
include h

theorem Superposed.length_left : r.length = u.length :=
  length_eq_of_taps h.taps_left

theorem Superposed.length_right : s.length = u.length :=
  length_eq_of_taps h.taps_right

theorem Superposed.length_eq : r.fill.length = s.fill.length :=
  h.length_left.trans h.length_right.symm

theorem Superposed.output_eq : u.output = (r.output ^^ s.output) := by
  have htaps : r.fill.length = u.taps.length := h.length_left.trans u.length_taps.symm
  rw [output, output, output, h.fill_eq, h.taps_left, h.taps_right,
    BitVector.dot_sum h.length_eq htaps]

theorem Superposed.advance : Superposed r.advance s.advance u.advance where
  taps_left := h.taps_left
  taps_right := h.taps_right
  fill_eq := by
    have hl : r.advance.fill.length = s.advance.fill.length := h.length_eq
    have hu : u.advance.fill.length = r.advance.fill.length := h.length_left.symm
    apply BitVector.ext_bit (hu.trans (BitVector.length_sum hl).symm)
    intro i _
    rw [BitVector.bit_sum hl, bit_fill_advance, bit_fill_advance, bit_fill_advance, h.length_left,
      h.length_right, h.output_eq, h.fill_eq, BitVector.bit_sum h.length_eq]
    split <;> rfl

theorem Superposed.advanceBy (m : Nat) :
    Superposed (r.advanceBy m) (s.advanceBy m) (u.advanceBy m) := by
  induction m generalizing r s u with
  | zero => exact h
  | succ m ih => exact ih h.advance

theorem Superposed.outputs_eq (m : Nat) :
    u.outputs m = List.zipWith (· ^^ ·) (r.outputs m) (s.outputs m) := by
  induction m generalizing r s u with
  | zero => rfl
  | succ m ih =>
    rw [outputs_succ, outputs_succ, outputs_succ, List.zipWith_cons_cons, h.output_eq,
      ih h.advance]

end Superposed

/-- Registers are linear: with the same taps, the sum of two fills gives the sum of their outputs,
entry by entry, and after any number of shifts the sum of what has become of them. -/
theorem runs_superpose {taps f g : BitVector} (hpos : 0 < taps.length)
    (hf : f.length = taps.length) (hg : g.length = taps.length) :
    (f.sum g).length = taps.length ∧ (∀ i, (f.sum g).bit i = (f.bit i ^^ g.bit i)) ∧
    ∃ r s u, ofVectors taps f = .ok r ∧ ofVectors taps g = .ok s ∧
      ofVectors taps (f.sum g) = .ok u ∧
      ∀ m, u.outputs m = List.zipWith (· ^^ ·) (r.outputs m) (s.outputs m) ∧
        (u.run m).2.fill = (r.run m).2.fill.sum (s.run m).2.fill := by
  have hl : f.length = g.length := hf.trans hg.symm
  have hsum : (f.sum g).length = taps.length := (BitVector.length_sum hl).trans hf
  obtain ⟨r, hr, hrt, hrf⟩ := exists_ofVectors taps f hpos hf
  obtain ⟨s, hs, hst, hsf⟩ := exists_ofVectors taps g hpos hg
  obtain ⟨u, hu, hut, huf⟩ := exists_ofVectors taps (f.sum g) hpos hsum
  have h : Superposed r s u := ⟨hrt.trans hut.symm, hst.trans hut.symm, by rw [huf, hrf, hsf]⟩
  refine ⟨hsum, BitVector.bit_sum hl, r, s, u, hr, hs, hu, fun m => ⟨h.outputs_eq m, ?_⟩⟩
  rw [run_eq, run_eq, run_eq]
  exact (h.advanceBy m).fill_eq

/-- Two fills of 65 bits that have a one in common. -/
theorem runs_superpose_example :
    let taps : BitVector := .ofNat 65 0x10000000000000001
    let f : BitVector := .ofNat 65 0b011
    let g : BitVector := .ofNat 65 0b110
    0 < taps.length ∧ f.length = taps.length ∧ g.length = taps.length ∧
    f.sum g = .ofNat 65 0b101 ∧
    ∃ r s u, ofVectors taps f = .ok r ∧ ofVectors taps g = .ok s ∧
      ofVectors taps (.ofNat 65 0b101) = .ok u ∧
      u.outputs 1000 = List.zipWith (· ^^ ·) (r.outputs 1000) (s.outputs 1000) ∧
      (u.run 1000).2.fill = (r.run 1000).2.fill.sum (s.run 1000).2.fill := by
  intro taps f g
  have hsum : f.sum g = .ofNat 65 0b101 := by decide +kernel
  obtain ⟨-, -, r, s, u, hr, hs, hu, hruns⟩ :=
    @runs_superpose taps f g (by decide) rfl rfl
  exact ⟨by decide, rfl, rfl, hsum, r, s, u, hr, hs, hsum ▸ hu, hruns 1000⟩

end ShiftRegister

end Keystream
