import Keystream.Proofs.Canonical
import Keystream.Proofs.InnerProduct
import Keystream.Proofs.Runs
import Keystream.TruthTable.Cursor
import Keystream.TruthTable.Text

/-!
# Small and large tables

Whatever is asked of a table is answered from its number of variables and its packed outputs, so
nothing but the kind itself tells a small table from a large one that holds the same. The two checks
of the packed outputs, a shift of the word and a count of its bits, refuse the same words.
-/

namespace Keystream.TruthTable

theorem lookup_eq_packed (t : TruthTable) : t.lookup = t.packed.testBit :=
  funext t.lookup_eq_testBit

theorem weight_eq_ones (t : TruthTable) : t.weight = Bits.ones t.packed := by
  cases t <;> rfl

theorem weight_eq_countP (t : TruthTable) :
    t.weight = (List.range (2 ^ t.arity)).countP t.lookup := by
  rw [weight_eq_ones, Bits.ones_eq_countP t.packed_lt, lookup_eq_packed]

namespace Cursor

theorem next_of_le {c : Cursor} (h : c.position ≤ c.last) :
    c.next = (some (c.table.lookup c.position), c.after h) := by
  rw [next, dif_pos h]

theorem next_of_remaining {c : Cursor} (h : c.remaining = 0) : c.next = (none, c) := by
  have hlt : c.last < c.position := Nat.sub_eq_zero_iff_le.1 h
  rw [next, dif_neg (Nat.not_le.2 hlt)]

theorem readOnto_eq (c : Cursor) (read : List Bool) :
    c.readOnto read =
      read.reverse ++ (List.range c.remaining).map fun i => c.table.lookup (c.position + i) := by
  induction hn : c.remaining generalizing c read with
  | zero =>
    rw [readOnto, next_of_remaining hn, List.range_zero, List.map_nil, List.append_nil]
  | succ n ih =>
    have hle : c.position ≤ c.last := by
      unfold remaining at hn
      omega
    have hrest : (c.after hle).remaining = n := by
      change c.last + 1 - (c.position + 1) = n
      rw [Nat.sub_add_eq, ← remaining, hn, Nat.add_sub_cancel]
    rw [readOnto, next_of_le hle]
    dsimp only
    rw [ih _ _ hrest, map_range_succ, List.reverse_cons, List.append_assoc]
    rfl

end Cursor

theorem toList_start (t : TruthTable) :
    t.start.toList = (List.range (2 ^ t.arity)).map t.lookup := by
  have hread := t.start.readOnto_eq []
  simp only [start, Cursor.remaining, maxInput_add_one, Nat.sub_zero, Nat.zero_add,
    List.reverse_nil, List.nil_append] at hread
  exact hread

/-- Two tables answer alike whatever is asked of them, and so do the functions made from them, where
small tables go through a given transform of words. -/
structure Alike (transform : Nat → UInt64 → UInt64) (t u : TruthTable) : Prop where
  arity_eq : t.arity = u.arity
  maxInput_eq : t.maxInput = u.maxInput
  output_eq : ∀ x, t.output x = u.output x
  outputOf_eq : ∀ v, t.outputOf v = u.outputOf v
  toList_eq : t.start.toList = u.start.toList
  weight_eq : t.weight = u.weight
  packed_eq : t.packed = u.packed
  toWord_eq : t.toWord? = u.toWord?
  hex_eq : t.hex = u.hex
  normalForm_eq : t.normalFormBy transform = u.normalFormBy transform
  equal : ((BooleanFunction.ofTable t).equal (.ofTable u)).1 = true
  equal_symm : ((BooleanFunction.ofTable u).equal (.ofTable t)).1 = true
  evalWord_eq : ∀ a, (BooleanFunction.ofTable t).evalWord a = (BooleanFunction.ofTable u).evalWord a
  eval_eq : ∀ v, (BooleanFunction.ofTable t).eval v = (BooleanFunction.ofTable u).eval v

variable {transform : Nat → UInt64 → UInt64} {t u : TruthTable}

theorem coefficients_eq (htransform : Moebius.TransformsWords transform) (ha : t.arity = u.arity)
    (hp : t.packed = u.packed) : t.coefficients transform = u.coefficients transform := by
  apply Nat.eq_of_testBit_eq
  intro m
  rw [testBit_coefficients htransform, testBit_coefficients htransform, lookup_eq_packed,
    lookup_eq_packed, ha, hp]

theorem eval_ofTable (t : TruthTable) (v : BitVector) :
    (BooleanFunction.ofTable t).eval v = t.outputOf v := rfl

theorem evalWord_ofTable (t : TruthTable) (a : UInt64) :
    (BooleanFunction.ofTable t).evalWord a = t.packed.testBit (Word.low t.arity a).toNat :=
  t.lookup_eq_testBit _

theorem equal_ofTable (ha : t.arity = u.arity) (hp : t.packed = u.packed) :
    ((BooleanFunction.ofTable t).equal (.ofTable u)).1 = true := by
  rw [BooleanFunction.equal_iff_evalWord]
  refine ⟨ha, ?_⟩
  intro v _
  rw [evalWord_ofTable, evalWord_ofTable, ha, hp]

theorem output_congr (ha : t.arity = u.arity) (hp : t.packed = u.packed) (x : Nat) :
    t.output x = u.output x := by
  rw [output, output, maxInput, maxInput, lookup_eq_packed, lookup_eq_packed, ha, hp]

theorem outputOf_congr (ha : t.arity = u.arity) (hp : t.packed = u.packed) (v : BitVector) :
    t.outputOf v = u.outputOf v := by
  rw [outputOf, outputOf, lookup_eq_packed, lookup_eq_packed, ha, hp]

/-- The kind of a table and the transform of words never show. -/
theorem alike_of_packed_eq (htransform : Moebius.TransformsWords transform) (ha : t.arity = u.arity)
    (hp : t.packed = u.packed) : Alike transform t u where
  arity_eq := ha
  maxInput_eq := by rw [maxInput, maxInput, ha]
  output_eq := output_congr ha hp
  outputOf_eq := outputOf_congr ha hp
  toList_eq := by rw [toList_start, toList_start, lookup_eq_packed, lookup_eq_packed, ha, hp]
  weight_eq := by rw [weight_eq_ones, weight_eq_ones, hp]
  packed_eq := hp
  toWord_eq := by rw [toWord?, toWord?, hp]
  hex_eq := by rw [hex, hex, hexLength, hexLength, ha, hp]
  normalForm_eq := by simp only [normalFormBy, coefficients_eq htransform ha hp, ha]
  equal := equal_ofTable ha hp
  equal_symm := equal_ofTable ha.symm hp.symm
  evalWord_eq a := by rw [evalWord_ofTable, evalWord_ofTable, ha, hp]
  eval_eq v := by rw [eval_ofTable, eval_ofTable, outputOf_congr ha hp]

/-- A word of outputs is taken by both kinds of table, which then answer alike, or by neither. -/
theorem storage_alike (htransform : Moebius.TransformsWords transform) {arity : Nat}
    (hpos : 0 < arity) (hle : arity ≤ 6) (w : UInt64) :
    (w.toNat < 2 ^ (2 ^ arity : Nat) ∧ ∃ t u, SmallTable.ofWord arity w = .ok t ∧
      LargeTable.ofPacked arity w.toNat = .ok u ∧ Alike transform (small t) (large u)) ∨
    (2 ^ (2 ^ arity : Nat) ≤ w.toNat ∧ SmallTable.ofWord arity w = .error .tableTooLarge ∧
      LargeTable.ofPacked arity w.toNat = .error .tableTooLarge) := by
  have h₃₁ : arity ≤ 31 := Nat.le_trans hle (by decide)
  have hfits := SmallTable.overflows_eq_false_iff hle w
  rw [SmallTable.ofWord, LargeTable.ofPacked, dif_neg (Nat.ne_of_gt hpos),
    dif_neg (Nat.ne_of_gt hpos), dif_neg (Nat.not_lt.2 hle), dif_neg (Nat.not_lt.2 h₃₁)]
  rcases Nat.lt_or_ge w.toNat (2 ^ (2 ^ arity : Nat)) with hlt | hge
  · refine Or.inl ⟨hlt, _, _, dif_pos (hfits.2 hlt), dif_pos (Bits.fits_iff.2 hlt), ?_⟩
    exact alike_of_packed_eq htransform rfl rfl
  · refine Or.inr ⟨hge, dif_neg ?_, dif_neg ?_⟩
    · exact fun h => Nat.not_lt.2 hge (hfits.1 h)
    · exact fun h => Nat.not_lt.2 hge (Bits.fits_iff.1 h)

/-- A full word of outputs of six variables, and one output too many for three. -/
theorem storage_alike_example :
    Moebius.TransformsWords Moebius.transformWord ∧
    (0 < 6 ∧ 6 ≤ 6 ∧ ∃ t u, SmallTable.ofWord 6 0xffffffffffffffff = .ok t ∧
      LargeTable.ofPacked 6 0xffffffffffffffff = .ok u ∧
      Alike Moebius.transformWord (small t) (large u)) ∧
    (0 < 3 ∧ 3 ≤ 6 ∧ SmallTable.ofWord 3 0x100 = .error .tableTooLarge ∧
      LargeTable.ofPacked 3 0x100 = .error .tableTooLarge) := by
  have htransform := Moebius.transformsWords_transformWord
  refine ⟨htransform, ⟨by decide, by decide, ?_⟩, ⟨by decide, by decide, ?_⟩⟩
  · obtain ⟨-, htables⟩ | ⟨hlarge, -⟩ :=
      storage_alike htransform (show 0 < 6 by decide) (by decide) 0xffffffffffffffff
    · exact htables
    · exact absurd hlarge (by decide)
  · obtain ⟨hsmall, -⟩ | ⟨-, herrors⟩ :=
      storage_alike htransform (show 0 < 3 by decide) (by decide) 0x100
    · exact absurd hsmall (by decide)
    · exact herrors

end Keystream.TruthTable
