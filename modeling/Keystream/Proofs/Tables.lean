import Keystream.TruthTable.Basic

/-!
# Building truth tables

A table is determined by its kind, its number of variables and its packed outputs. The builders that
choose a kind make a table small exactly if it has at most six variables: `Canonical` says this
together with what the table holds, so canonical tables are determined by what they hold.
-/

namespace Keystream.TruthTable

theorem arity_le_word (t : TruthTable) : t.arity ≤ 64 :=
  Nat.le_trans t.arity_le (by decide)

theorem ext_packed {t u : TruthTable} (hs : t.isSmall = u.isSmall) (ha : t.arity = u.arity)
    (hp : t.packed = u.packed) : t = u := by
  cases t with
  | small t =>
    cases u with
    | small u =>
      obtain ⟨n, v, _, _, _⟩ := t
      obtain ⟨m, w, _, _, _⟩ := u
      obtain rfl : n = m := ha
      obtain rfl : v = w := UInt64.toNat_inj.1 hp
      rfl
    | large u => exact Bool.noConfusion hs
  | large t =>
    cases u with
    | small u => exact Bool.noConfusion hs
    | large u =>
      obtain ⟨n, v, _, _, _⟩ := t
      obtain ⟨m, w, _, _, _⟩ := u
      obtain rfl : n = m := ha
      obtain rfl : v = w := hp
      rfl

theorem lookup_of_le (t : TruthTable) {x : Nat} (hx : 2 ^ t.arity ≤ x) : t.lookup x = false := by
  rw [lookup_eq_testBit]
  exact Bits.testBit_of_le t.packed_lt hx

theorem ext_lookup {t u : TruthTable} (hs : t.isSmall = u.isSmall) (ha : t.arity = u.arity)
    (h : ∀ x, x < 2 ^ t.arity → t.lookup x = u.lookup x) : t = u := by
  apply ext_packed hs ha
  apply Nat.eq_of_testBit_eq
  intro x
  rw [← lookup_eq_testBit, ← lookup_eq_testBit]
  rcases Nat.lt_or_ge x (2 ^ t.arity) with hx | hx
  · exact h x hx
  · rw [t.lookup_of_le hx, u.lookup_of_le (ha ▸ hx)]

theorem output_of_lt (t : TruthTable) {x : Nat} (hx : x < 2 ^ t.arity) :
    t.output x = .ok (t.lookup x) := by
  have hle : x ≤ t.maxInput := Nat.le_sub_one_of_lt hx
  rw [output, if_pos hle]

theorem output_of_le (t : TruthTable) {x : Nat} (hx : 2 ^ t.arity ≤ x) :
    t.output x = .error (.inputOutOfRange x (2 ^ t.arity - 1)) := by
  have hlt : ¬ x ≤ 2 ^ t.arity - 1 := by
    have := Nat.two_pow_pos t.arity
    omega
  rw [output, maxInput, if_neg hlt]

/-- The table holds these packed outputs of `arity` variables, in a word if they are at most six. -/
structure Canonical (t : TruthTable) (arity packed : Nat) : Prop where
  arity_eq : t.arity = arity
  packed_eq : t.packed = packed
  isSmall_iff : t.isSmall = true ↔ arity ≤ 6

theorem Canonical.unique {t u : TruthTable} {arity packed : Nat} (ht : t.Canonical arity packed)
    (hu : u.Canonical arity packed) : t = u := by
  apply ext_packed
  · rw [Bool.eq_iff_iff, ht.isSmall_iff, hu.isSmall_iff]
  · rw [ht.arity_eq, hu.arity_eq]
  · rw [ht.packed_eq, hu.packed_eq]

theorem exists_ofWord {arity : Nat} {w : UInt64} (hpos : 0 < arity) (hle : arity ≤ 6)
    (h : w.toNat < 2 ^ (2 ^ arity : Nat)) :
    ∃ t, ofWord arity w = .ok t ∧ t.Canonical arity w.toNat := by
  refine ⟨.small ⟨arity, w, hpos, hle, h⟩, ?_, rfl, rfl, iff_of_true rfl hle⟩
  rw [ofWord, SmallTable.ofWord, dif_neg (Nat.ne_of_gt hpos), dif_neg (Nat.not_lt.2 hle),
    dif_pos ((SmallTable.overflows_eq_false_iff hle w).2 h)]
  rfl

theorem exists_large {arity packed : Nat} (hlt : 6 < arity) (hle : arity ≤ 31)
    (h : packed < 2 ^ (2 ^ arity : Nat)) :
    ∃ t, (LargeTable.ofPacked arity packed).map large = .ok t ∧ t.Canonical arity packed := by
  have hpos : 0 < arity := Nat.lt_of_le_of_lt (Nat.zero_le 6) hlt
  refine ⟨.large ⟨arity, packed, hpos, hle, h⟩, ?_, rfl, rfl,
    iff_of_false Bool.false_ne_true (Nat.not_le.2 hlt)⟩
  rw [LargeTable.ofPacked, dif_neg (Nat.ne_of_gt hpos), dif_neg (Nat.not_lt.2 hle),
    dif_pos (Bits.fits_iff.2 h)]
  rfl

theorem checkArity_of_range {arity : Nat} (hpos : 0 < arity) (hle : arity ≤ 31) :
    checkArity arity = .ok () := by
  rw [checkArity, if_neg (Nat.ne_of_gt hpos), if_neg (Nat.not_lt.2 hle)]

theorem checkArity_of_lt {arity : Nat} (h : 31 < arity) :
    checkArity arity = .error (.tooManyVariables 31) := by
  rw [checkArity, if_neg (Nat.ne_of_gt (Nat.lt_of_le_of_lt (Nat.zero_le 31) h)), if_pos h]

/-- Packed outputs of at most six variables are a word. -/
theorem toNat_ofNat_of_arity_le {arity packed : Nat} (hle : arity ≤ 6)
    (h : packed < 2 ^ (2 ^ arity : Nat)) : (UInt64.ofNat packed).toNat = packed := by
  have hsize : 2 ^ (2 ^ arity : Nat) ≤ 2 ^ 64 :=
    Nat.pow_le_pow_right Nat.two_pos (Nat.pow_le_pow_right Nat.two_pos hle : 2 ^ arity ≤ 2 ^ 6)
  rw [UInt64.toNat_ofNat', Nat.mod_eq_of_lt (Nat.lt_of_lt_of_le h hsize)]

theorem exists_ofPacked {arity packed : Nat} (hpos : 0 < arity) (hle : arity ≤ 31)
    (h : packed < 2 ^ (2 ^ arity : Nat)) :
    ∃ t, ofPacked arity packed = .ok t ∧ t.Canonical arity packed := by
  simp only [ofPacked, checkArity_of_range hpos hle, if_pos (Bits.fits_iff.2 h)]
  rcases Nat.lt_or_ge 6 arity with hlt | hsmall
  · rw [if_neg (Nat.not_le.2 hlt)]
    exact exists_large hlt hle h
  · have hword := toNat_ofNat_of_arity_le hsmall h
    rw [if_pos hsmall]
    obtain ⟨t, ht, hc⟩ := exists_ofWord (w := UInt64.ofNat packed) hpos hsmall (hword.symm ▸ h)
    rw [hword] at hc
    exact ⟨t, ht, hc⟩

/-- The number whose bit `x` is the output for input `x`, for the inputs of `arity` variables. -/
def pack (arity : Nat) (f : Nat → Bool) : Nat :=
  Bits.toNat ((List.range (2 ^ arity)).map f)

theorem pack_lt (arity : Nat) (f : Nat → Bool) : pack arity f < 2 ^ (2 ^ arity : Nat) := by
  have hlt := Bits.toNat_lt ((List.range (2 ^ arity)).map f)
  rwa [List.length_map, List.length_range] at hlt

theorem testBit_pack (arity : Nat) (f : Nat → Bool) (x : Nat) :
    (pack arity f).testBit x = (decide (x < 2 ^ arity) && f x) := by
  rcases Nat.lt_or_ge x (2 ^ arity) with hx | hx
  · rw [pack, Bits.testBit_toNat, List.getElem?_map, List.getElem?_range hx, decide_eq_true hx,
      Bool.true_and]
    rfl
  · rw [Bits.testBit_of_le (pack_lt arity f) hx, decide_eq_false (Nat.not_lt.2 hx), Bool.false_and]

theorem eq_pack {arity v : Nat} {f : Nat → Bool}
    (h : ∀ x, v.testBit x = (decide (x < 2 ^ arity) && f x)) : v = pack arity f := by
  apply Nat.eq_of_testBit_eq
  intro x
  rw [h, testBit_pack]

theorem packed_eq_pack (t : TruthTable) : t.packed = pack t.arity t.lookup := by
  apply eq_pack
  intro x
  rw [lookup_eq_testBit, ← Nat.testBit_mod_two_pow, Nat.mod_eq_of_lt t.packed_lt]

theorem pack_congr {arity : Nat} {f g : Nat → Bool} (h : ∀ x, x < 2 ^ arity → f x = g x) :
    pack arity f = pack arity g := by
  rw [pack, pack, List.map_congr_left fun x hx => h x (List.mem_range.1 hx)]

theorem Canonical.lookup_eq {t : TruthTable} {arity : Nat} {f : Nat → Bool}
    (h : t.Canonical arity (pack arity f)) {x : Nat} (hx : x < 2 ^ arity) : t.lookup x = f x := by
  rw [lookup_eq_testBit, h.packed_eq, testBit_pack, decide_eq_true hx, Bool.true_and]

/-- The inputs with output one put one by one into a word or a number make up the packed outputs. -/
theorem exists_tabulate_canonical {arity : Nat} (hpos : 0 < arity) (hle : arity ≤ 31)
    (f : Nat → Bool) :
    ∃ t, tabulate arity f = .ok t ∧ t.Canonical arity (pack arity f) := by
  have hmem : ∀ x, decide (x ∈ (List.range (2 ^ arity)).filter f) =
      (decide (x < 2 ^ arity) && f x) := by
    intro x
    rw [Bool.eq_iff_iff]
    simp
  simp only [tabulate, checkArity_of_range hpos hle]
  rcases Nat.lt_or_ge 6 arity with hlt | hsmall
  · have hpacked : ((List.range (2 ^ arity)).filter f).foldl (fun v x => Bits.put v x true) 0 =
        pack arity f := eq_pack fun x => by
      rw [Bits.testBit_foldl_put, Nat.zero_testBit, Bool.false_or, hmem]
    rw [if_neg (Nat.not_le.2 hlt), hpacked]
    exact exists_large hlt hle (pack_lt arity f)
  · have hsize : 2 ^ arity ≤ 64 := (Nat.pow_le_pow_right Nat.two_pos hsmall : 2 ^ arity ≤ 2 ^ 6)
    have hinputs : ∀ x ∈ (List.range (2 ^ arity)).filter f, x < 64 := by
      intro x hx
      exact Nat.lt_of_lt_of_le (List.mem_range.1 (List.mem_filter.1 hx).1) hsize
    have hpacked : (((List.range (2 ^ arity)).filter f).foldl
        (fun w x => w ||| Word.single x) 0).toNat = pack arity f := eq_pack fun x => by
      rw [← hmem]
      exact (Word.bit_foldl_single hinputs 0 x).trans (by rw [Word.bit_zero, Bool.false_or])
    rw [if_pos hsmall, ← hpacked]
    exact exists_ofWord hpos hsmall (hpacked ▸ pack_lt arity f)

theorem exists_tabulate {arity : Nat} (hpos : 0 < arity) (hle : arity ≤ 31) (f : Nat → Bool) :
    ∃ t, tabulate arity f = .ok t ∧ t.arity = arity ∧ (t.isSmall = true ↔ arity ≤ 6) ∧
      ∀ x, x < 2 ^ arity → t.lookup x = f x := by
  obtain ⟨t, ht, hc⟩ := exists_tabulate_canonical hpos hle f
  exact ⟨t, ht, hc.arity_eq, hc.isSmall_iff, fun x => hc.lookup_eq⟩

theorem tabulate_of_lt {arity : Nat} (h : 31 < arity) (f : Nat → Bool) :
    tabulate arity f = .error (.tooManyVariables 31) := by
  rw [tabulate, checkArity_of_lt h]
  rfl

end Keystream.TruthTable
