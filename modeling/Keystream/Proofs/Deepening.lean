import Keystream.Proofs.BitLists
import Keystream.Proofs.Settings

/-!
# Deeper copies of registers

A register that has the fill and the taps of another behind any number of further bits, none of them
tapped, puts out what the other puts out, and goes on holding its fill behind these bits. It does
not matter that the two may be kept differently, one in a word and the other in a number.
-/

namespace Keystream.ShiftRegister

/-- The register `b` is `a` with `d` bits in front, of which none is tapped. -/
structure Deepens (d : Nat) (a b : ShiftRegister) : Prop where
  taps_eq : b.taps.toList = List.replicate d false ++ a.taps.toList
  fill_eq : b.fill.toList.drop d = a.fill.toList

namespace Deepens

variable {d : Nat} {a b : ShiftRegister} (h : Deepens d a b)
include h

theorem length_eq : b.length = d + a.length := by
  have hl := congrArg List.length h.taps_eq
  rwa [List.length_append, List.length_replicate, BitVector.length_toList,
    BitVector.length_toList, a.length_taps, b.length_taps] at hl

theorem length_take : (b.fill.toList.take d).length = (List.replicate d false).length := by
  have hl : b.fill.length = d + a.length := h.length_eq
  rw [List.length_take, BitVector.length_toList, hl, List.length_replicate,
    Nat.min_eq_left (Nat.le_add_right d a.length)]

/-- The bits in front add nothing to the output. -/
theorem output_eq : b.output = a.output := by
  have hfront : ∀ e ∈ (b.fill.toList.take d).zip (List.replicate d false),
      (e.1 && e.2) = false := by
    rintro ⟨x, y⟩ he
    obtain rfl : y = false := List.eq_of_mem_replicate (List.of_mem_zip he).2
    exact Bool.and_false x
  rw [output, output, BitVector.dot_eq_zip a.length_taps.symm,
    BitVector.dot_eq_zip b.length_taps.symm, ← List.take_append_drop d b.fill.toList, h.fill_eq,
    h.taps_eq, List.zip_append h.length_take, paritySum_append, paritySum_congr hfront,
    paritySum_false, Bool.false_xor]

theorem advance : Deepens d a.advance b.advance where
  taps_eq := h.taps_eq
  fill_eq := by
    have hl : b.fill.length = d + a.length := h.length_eq
    have ha : 0 < a.length := a.length_pos
    have hdrop : d ≤ b.fill.toList.tail.length := by
      rw [List.length_tail, BitVector.length_toList, hl]
      omega
    calc b.advance.fill.toList.drop d
        = (b.fill.toList.tail ++ [b.output]).drop d := by
          rw [ShiftRegister.advance, BitVector.toList_slide]
      _ = (b.fill.toList.drop d).tail ++ [b.output] := by
          rw [List.drop_append_of_le_length hdrop, List.drop_tail, List.tail_drop]
      _ = a.fill.toList.tail ++ [a.output] := by rw [h.fill_eq, h.output_eq]
      _ = a.advance.fill.toList := by rw [ShiftRegister.advance, BitVector.toList_slide]

theorem advanceBy (k : Nat) : Deepens d (a.advanceBy k) (b.advanceBy k) := by
  induction k generalizing a b with
  | zero => exact h
  | succ k ih => exact ih h.advance

theorem outputs_eq (k : Nat) : b.outputs k = a.outputs k := by
  induction k generalizing a b with
  | zero => rfl
  | succ k ih => rw [outputs_succ, outputs_succ, h.output_eq, ih h.advance]

end Deepens

theorem exists_deepens (a : ShiftRegister) (low : List Bool) :
    ∃ b, Deepens low.length a b ∧ b.fill.toList = low ++ a.fill.toList := by
  let taps : BitVector := .ofBits (List.replicate low.length false ++ a.taps.toList)
  let fill : BitVector := .ofBits (low ++ a.fill.toList)
  have htaps : taps.length = low.length + a.length := by
    simp only [taps, BitVector.length_ofBits, List.length_append, List.length_replicate,
      BitVector.length_toList, a.length_taps, length]
  have hfill : fill.length = taps.length := by
    rw [htaps]
    simp only [fill, BitVector.length_ofBits, List.length_append, BitVector.length_toList, length]
  have ha : 0 < a.length := a.length_pos
  obtain ⟨b, -, hbt, hbf⟩ := exists_ofVectors taps fill (by omega) hfill
  have hlist : b.fill.toList = low ++ a.fill.toList := by rw [hbf, BitVector.toList_ofBits]
  refine ⟨b, ⟨?_, ?_⟩, hlist⟩
  · rw [hbt, BitVector.toList_ofBits]
  · rw [hlist, List.drop_left]

/-- Whatever bits stand in front, there is such a copy of a register, and every one puts out the
same bits as the register and keeps its fill behind them. -/
theorem deepened_runs_alike (a : ShiftRegister) (d : Nat) :
    (∀ low : List Bool, low.length = d →
      ∃ b, Deepens d a b ∧ b.fill.toList = low ++ a.fill.toList) ∧
    ∀ b, Deepens d a b → b.length = d + a.length ∧ ∀ k,
      b.outputs k = a.outputs k ∧ (b.run k).1 = (a.run k).1 ∧
      (b.run k).2.fill.toList.drop d = (a.run k).2.fill.toList := by
  constructor
  · rintro low rfl
    exact a.exists_deepens low
  · intro b h
    refine ⟨h.length_eq, fun k => ?_⟩
    rw [run_eq, run_eq]
    exact ⟨h.outputs_eq k, h.outputs_eq k, (h.advanceBy k).fill_eq⟩

/-- A register of four bits, kept in words, and a copy behind 64 bits, which is not. -/
theorem deepened_runs_alike_example :
    ∃ a b, ofVectors (.ofNat 4 0b0011) (.ofNat 4 0b0001) = .ok a ∧
      ofVectors (.ofNat 68 0x30000000000000000) (.ofNat 68 0x1deadbeefdeadbeef) = .ok b ∧
      a.fill.storage.isWord = true ∧ b.fill.storage.isWord = false ∧ Deepens 64 a b ∧
      (∃ c, Deepens 64 a c ∧ c.fill.toList = List.replicate 64 true ++ a.fill.toList) ∧
      (b.run 1000).1 = (a.run 1000).1 ∧
      (b.run 1000).2.fill.toList.drop 64 = (a.run 1000).2.fill.toList := by
  obtain ⟨a, b, ha, hb, hword, hwide, htaps, hfill⟩ : ∃ a b,
      ofVectors (.ofNat 4 0b0011) (.ofNat 4 0b0001) = .ok a ∧
      ofVectors (.ofNat 68 0x30000000000000000) (.ofNat 68 0x1deadbeefdeadbeef) = .ok b ∧
      a.fill.storage.isWord = true ∧ b.fill.storage.isWord = false ∧
      b.taps.toList = List.replicate 64 false ++ a.taps.toList ∧
      b.fill.toList.drop 64 = a.fill.toList :=
    ⟨_, _, rfl, rfl, rfl, rfl, by decide +kernel, by decide +kernel⟩
  obtain ⟨hcopies, halike⟩ := deepened_runs_alike a 64
  obtain ⟨-, hruns⟩ := halike b ⟨htaps, hfill⟩
  exact ⟨a, b, ha, hb, hword, hwide, ⟨htaps, hfill⟩,
    hcopies (List.replicate 64 true) List.length_replicate, (hruns 1000).2⟩

end Keystream.ShiftRegister
