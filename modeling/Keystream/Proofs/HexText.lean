import Keystream.Proofs.HexReaders
import Keystream.Proofs.Runs
import Keystream.Proofs.Tables
import Keystream.TruthTable.Text

/-!
# Reading tables in hexadecimal

Four outputs make a digit, so a text spells a table if the digit `k` places from its end is that of
the inputs from `4 * k` on. Of such a text the length in bytes is the number of digits, and whatever
reads digits reads the table back from it; the text that a table is written as is one of them.
-/

namespace Keystream

namespace TruthTable

/-- The four outputs from input `4 * k` on as a digit. -/
def quad (f : Nat → Bool) (k : Nat) : Nat :=
  pack 2 fun i => f (4 * k + i)

theorem quad_lt (f : Nat → Bool) (k : Nat) : quad f k < 16 :=
  pack_lt 2 _

theorem quad_eq (f : Nat → Bool) (k : Nat) :
    quad f k = 8 * (f (4 * k + 1 + 1 + 1)).toNat + 4 * (f (4 * k + 1 + 1)).toNat +
      2 * (f (4 * k + 1)).toNat + (f (4 * k)).toNat := by
  change Bits.toNat [f (4 * k), f (4 * k + 1), f (4 * k + 1 + 1), f (4 * k + 1 + 1 + 1)] = _
  simp only [Bits.toNat_cons, Bits.toNat_nil]
  omega

/-- Four outputs more are one digit more, the lowest. -/
theorem toNat_map_quads (f : Nat → Bool) (p n : Nat) :
    Bits.toNat ((List.range (4 * n)).map fun x => f (4 * p + x)) =
      ((List.range n).map fun k => quad f (p + k)).foldr (fun d v => 16 * v + d) 0 := by
  induction n generalizing p with
  | zero => rfl
  | succ n ih =>
    have hsucc : 4 * (n + 1) = 4 * n + 1 + 1 + 1 + 1 := Nat.mul_add_one 4 n
    have hnext : 4 * (p + 1) = 4 * p + 1 + 1 + 1 + 1 := Nat.mul_add_one 4 p
    have htail := ih (p + 1)
    rw [hnext] at htail
    rw [map_range_succ, List.foldr_cons, ← htail, quad_eq, hsucc]
    simp only [map_range_succ, Bits.toNat_cons]
    omega

theorem two_pow_eq_four_mul {arity : Nat} (h : 2 ≤ arity) : 2 ^ arity = 4 * 2 ^ (arity - 2) := by
  obtain ⟨n, rfl⟩ : ∃ n, arity = n + 2 := ⟨arity - 2, (Nat.sub_add_cancel h).symm⟩
  rw [Nat.add_sub_cancel, Nat.pow_add, Nat.mul_comm]

theorem pack_eq_foldr {arity : Nat} (h : 2 ≤ arity) (f : Nat → Bool) :
    pack arity f =
      ((List.range (2 ^ (arity - 2))).map (quad f)).foldr (fun d v => 16 * v + d) 0 := by
  have hquads := toNat_map_quads f 0 (2 ^ (arity - 2))
  simp only [Nat.mul_zero, Nat.zero_add] at hquads
  rw [pack, two_pow_eq_four_mul h]
  exact hquads

/-- The text spells the outputs for the inputs of `arity` variables in digits of either case, of
which the one `k` places from the end stands for the inputs from `4 * k` on. -/
def HexSpells (arity : Nat) (f : Nat → Bool) (s : String) : Prop :=
  s.toList.reverse.map Hex.value? = (List.range (2 ^ (arity - 2))).map fun k => some (quad f k)

theorem HexSpells.congr {arity : Nat} (hge : 2 ≤ arity) {f g : Nat → Bool} {s : String}
    (h : ∀ x, x < 2 ^ arity → f x = g x) (hs : HexSpells arity f s) : HexSpells arity g s := by
  rw [HexSpells, hs]
  apply List.map_congr_left
  intro k hk
  have hk := List.mem_range.1 hk
  have hsize := two_pow_eq_four_mul hge
  have hquad : quad f k = quad g k := pack_congr fun i hi => h _ (by omega)
  rw [hquad]

theorem exists_ofHexBy {read : List Char → Option Nat} (hdigits : Hex.ReadsDigits read)
    {arity : Nat} (hpos : 2 ≤ arity) (hle : arity ≤ 31) {f : Nat → Bool} {s : String}
    (h : HexSpells arity f s) :
    ∃ t, ofHexBy read s = .ok t ∧ t.Canonical arity (pack arity f) := by
  let ds := ((List.range (2 ^ (arity - 2))).map (quad f)).reverse
  have hvalues : s.toList.map Hex.value? = ds.map some := by
    have hrev := congrArg List.reverse h
    rw [List.map_reverse, List.reverse_reverse] at hrev
    rw [hrev, List.map_reverse, List.map_map]
    rfl
  have hlength : ds.length = 2 ^ (arity - 2) := by
    rw [List.length_reverse, List.length_map, List.length_range]
  have hsize : s.utf8ByteSize = 2 ^ (arity - 2) := by
    rw [← hlength, ← Hex.utf8Len_eq hvalues, String.utf8Len_toList]
  have hne : ds ≠ [] := List.ne_nil_of_length_pos (hlength ▸ Nat.two_pow_pos _)
  have hread : read s.toList = some (pack arity f) := by
    rw [hdigits _ _ hvalues hne, List.foldl_reverse, ← pack_eq_foldr hpos]
  simp only [ofHexBy, hsize, Nat.log2_two_pow, if_pos, hread, Nat.sub_add_cancel hpos]
  exact exists_ofPacked (Nat.lt_of_lt_of_le Nat.two_pos hpos) hle (pack_lt arity f)

theorem quad_testBit (v k : Nat) : quad v.testBit k = v >>> (4 * k) % 16 := by
  symm
  apply eq_pack
  intro i
  rw [show 16 = 2 ^ (2 ^ 2 : Nat) from rfl, Nat.testBit_mod_two_pow, Nat.testBit_shiftRight]

theorem hexLength_eq {t : TruthTable} (h : 2 ≤ t.arity) : t.hexLength = 2 ^ (t.arity - 2) := by
  rw [hexLength, two_pow_eq_four_mul h]
  omega

theorem hexSpells_hex {t : TruthTable} (h : 2 ≤ t.arity) : HexSpells t.arity t.lookup t.hex := by
  have hlookup : t.lookup = t.packed.testBit := funext t.lookup_eq_testBit
  rw [HexSpells, hex, String.toList_ofList, Hex.fixed, ← List.map_reverse, List.reverse_reverse,
    List.map_map, hexLength_eq h, hlookup]
  apply List.map_congr_left
  intro k _
  rw [Function.comp_apply, ← quad_testBit, Hex.value?_digit (quad_lt _ k)]

end TruthTable

end Keystream
