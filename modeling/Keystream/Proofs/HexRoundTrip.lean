import Keystream.Proofs.HexText

/-!
# Writing tables in hexadecimal and reading them back

The digits of a table, from the last one on, are its outputs four by four, in lower case. A text of
as many digits as a power of two is read, and written again in lower case, since the length of the
text gives the number of variables for which it has exactly the digits. The number behind a text of
any kind is too small to overflow that table. All of this holds for every reader of numbers that does
what `Hex.Reads` says.
-/

namespace Keystream

namespace Hex

theorem foldl_lt {ds : List Nat} (h : ∀ d ∈ ds, d < 16) (v : Nat) :
    ds.foldl (fun v d => 16 * v + d) v < (v + 1) * 16 ^ ds.length := by
  induction ds generalizing v with
  | nil =>
    rw [List.foldl_nil, List.length_nil, Nat.pow_zero]
    omega
  | cons d ds ih =>
    obtain ⟨hd, hds⟩ := List.forall_mem_cons.1 h
    rw [List.foldl_cons, List.length_cons, Nat.pow_succ, Nat.mul_comm (16 ^ ds.length),
      ← Nat.mul_assoc]
    exact Nat.lt_of_lt_of_le (ih hds _) (Nat.mul_le_mul_right _ (by omega))

/-- Signs and underscores only make a text longer than its number. -/
theorem Reads.lt {read : List Char → Option Nat} (h : Reads read) {cs : List Char} {v : Nat}
    (hread : read cs = some v) : v < 16 ^ cs.length := by
  have hnumeral := h.numeral_of_some hread
  have hdigits : ∀ c ∈ Hex.digits cs, IsDigit c := fun c => isDigit_of_mem_digits
  obtain ⟨ds, hvalues, hlength, hds⟩ := exists_values hdigits
  have hne : ds ≠ [] := by
    rintro rfl
    exact hnumeral.digits_ne_nil (List.length_eq_zero_iff.1 hlength.symm)
  rw [h.eq_digits hnumeral, h.digits _ _ hvalues hne] at hread
  obtain rfl := Option.some.inj hread
  have hlt := foldl_lt hds 0
  rw [Nat.zero_add, Nat.one_mul, hlength] at hlt
  exact Nat.lt_of_lt_of_le hlt (Nat.pow_le_pow_right (by decide) (List.length_filter_le _ _))

theorem reverse_fixed (width v : Nat) :
    (fixed width v).reverse = (List.range width).map fun k => digit (v >>> (4 * k) % 16) := by
  rw [fixed, ← List.map_reverse, List.reverse_reverse]

end Hex

theorem length_le_utf8Len (cs : List Char) : cs.length ≤ String.utf8Len cs := by
  induction cs with
  | nil => exact Nat.le_refl _
  | cons c cs ih =>
    have := c.utf8Size_pos
    rw [String.utf8Len_cons, List.length_cons]
    omega

namespace TruthTable

variable {read : List Char → Option Nat}

theorem reverse_toList_hex {t : TruthTable} (h : 2 ≤ t.arity) :
    t.hex.toList.reverse =
      (List.range (2 ^ (t.arity - 2))).map fun k => Hex.digit (quad t.lookup k) := by
  have hlookup : t.lookup = t.packed.testBit := funext t.lookup_eq_testBit
  rw [hex, String.toList_ofList, Hex.reverse_fixed, hexLength_eq h, hlookup]
  simp only [quad_testBit]

theorem length_hex {t : TruthTable} (h : 2 ≤ t.arity) : t.hex.length = 2 ^ (t.arity - 2) := by
  rw [← String.length_toList, ← List.length_reverse, reverse_toList_hex h, List.length_map,
    List.length_range]

theorem testBit_quad (f : Nat → Bool) (k : Nat) {i : Nat} (h : i < 4) :
    (quad f k).testBit i = f (4 * k + i) := by
  rw [quad, testBit_pack, decide_eq_true h, Bool.true_and]

/-- The digit `k` places from the end holds the outputs for the inputs from `4 * k` on. -/
theorem exists_digit {t : TruthTable} (h : 2 ≤ t.arity) {k : Nat} (hk : k < 2 ^ (t.arity - 2)) :
    ∃ (c : Char) (d : Nat), t.hex.toList.reverse[k]? = some c ∧ Hex.lowerDigits[d]? = some c ∧
      ∀ i, i < 4 → t.output (4 * k + i) = .ok (d.testBit i) := by
  refine ⟨_, quad t.lookup k, ?_, Hex.getElem?_lowerDigits (quad_lt _ k), ?_⟩
  · rw [reverse_toList_hex h, List.getElem?_map, List.getElem?_range hk, Option.map_some]
  · intro i hi
    have hsize := two_pow_eq_four_mul h
    rw [t.output_of_lt (by omega), testBit_quad _ k hi]

theorem ofHexBy_hex (hdigits : Hex.ReadsDigits read) {t : TruthTable} (h : 2 ≤ t.arity)
    (hs : t.isSmall = true ↔ t.arity ≤ 6) : ofHexBy read t.hex = .ok t := by
  obtain ⟨u, hu, hc⟩ := exists_ofHexBy hdigits h t.arity_le (hexSpells_hex h)
  rw [hu, hc.unique ⟨rfl, t.packed_eq_pack, hs⟩]

/-- A text of digits of either case, as many as a power of two, spells some outputs. -/
theorem exists_hexSpells {s : String} (h : ∀ c ∈ s.toList, c ∈ Hex.lowerDigits ∨ c ∈ Hex.upperDigits)
    {n : Nat} (hl : s.length = 2 ^ n) : ∃ f, HexSpells (n + 2) f s := by
  let place (k : Nat) : Nat := (s.toList.reverse[k]?.bind Hex.value?).getD 0
  refine ⟨fun x => (place (x / 4)).testBit (x % 4), ?_⟩
  rw [HexSpells, Nat.add_sub_cancel]
  apply List.ext_getElem?
  intro k
  rw [List.getElem?_map, List.getElem?_map]
  rcases Nat.lt_or_ge k (2 ^ n) with hk | hk
  · have hk' : k < s.toList.reverse.length := by
      rwa [List.length_reverse, String.length_toList, hl]
    obtain ⟨d, hd, hvalue, -⟩ := Hex.exists_value? (h _ (List.mem_reverse.1 (List.getElem_mem hk')))
    have hplace : place k = d := by
      simp only [place, List.getElem?_eq_getElem hk', Option.bind_some, hvalue, Option.getD_some]
    have hquad : d = quad (fun x => (place (x / 4)).testBit (x % 4)) k := by
      apply eq_pack
      intro i
      rcases Nat.lt_or_ge i 4 with hi | hi
      · have hindex : (4 * k + i) / 4 = k ∧ (4 * k + i) % 4 = i := by omega
        dsimp only
        rw [decide_eq_true hi, Bool.true_and, hindex.1, hindex.2, hplace]
      · rw [decide_eq_false (Nat.not_lt.2 hi), Bool.false_and]
        have hlt : d < 2 ^ (4 : Nat) := hd
        exact Bits.testBit_of_le hlt hi
    rw [List.getElem?_eq_getElem hk', List.getElem?_range hk, Option.map_some, Option.map_some,
      hvalue, ← hquad]
  · rw [List.getElem?_eq_none, List.getElem?_eq_none, Option.map_none, Option.map_none]
    · rwa [List.length_range]
    · rwa [List.length_reverse, String.length_toList, hl]

theorem HexSpells.toLower_eq {arity : Nat} {f : Nat → Bool} {s : String} (hs : HexSpells arity f s)
    (h : ∀ c ∈ s.toList, c ∈ Hex.lowerDigits ∨ c ∈ Hex.upperDigits) :
    s.toLower.toList.reverse =
      (List.range (2 ^ (arity - 2))).map fun k => Hex.digit (quad f k) := by
  have hlower : s.toList.reverse.map (fun c => (Hex.value? c).map Hex.digit) =
      s.toList.reverse.map fun c => some c.toLower := by
    apply List.map_congr_left
    intro c hc
    obtain ⟨d, -, hvalue, hd⟩ := Hex.exists_value? (h c (List.mem_reverse.1 hc))
    rw [hvalue, hd, Option.map_some]
  have hmap := congrArg (List.map (Option.map Hex.digit)) hs
  rw [List.map_map, List.map_map] at hmap
  have hsome := hlower.symm.trans hmap
  have htoLower : s.toLower = s.map Char.toLower := rfl
  rw [htoLower, String.toList_map, ← List.map_reverse]
  apply (List.map_inj_right fun _ _ => Option.some.inj).1
  rw [List.map_map, List.map_map]
  exact hsome

/-- Such a text is read as a table that is written as the same text in lower case. -/
theorem exists_ofHexBy_toLower (hdigits : Hex.ReadsDigits read) {s : String}
    (h : ∀ c ∈ s.toList, c ∈ Hex.lowerDigits ∨ c ∈ Hex.upperDigits) {n : Nat} (hn : n ≤ 29)
    (hl : s.length = 2 ^ n) :
    ∃ t, ofHexBy read s = .ok t ∧ t.arity = n + 2 ∧ t.hex = s.toLower := by
  obtain ⟨f, hs⟩ := exists_hexSpells h hl
  have hge : 2 ≤ n + 2 := Nat.le_add_left 2 n
  obtain ⟨t, ht, hc⟩ := exists_ofHexBy hdigits hge (by omega) hs
  refine ⟨t, ht, hc.arity_eq, ?_⟩
  have hlookup : HexSpells (n + 2) t.lookup s := hs.congr hge fun x hx => (hc.lookup_eq hx).symm
  have hreverse := reverse_toList_hex (t := t) (hc.arity_eq ▸ hge)
  rw [hc.arity_eq, ← hlookup.toLower_eq h] at hreverse
  exact String.toList_inj.1 (List.reverse_injective hreverse)

theorem ofPacked_of_lt {arity : Nat} (h : 31 < arity) (packed : Nat) :
    ofPacked arity packed = .error (.tooManyVariables 31) := by
  simp only [ofPacked, checkArity_of_lt h]
  rfl

theorem ofHexBy_of_ne {s : String} (h : ¬ ∃ n, s.utf8ByteSize = 2 ^ n) :
    ofHexBy read s = .error .wrongHexLength :=
  if_neg fun hsize => h ⟨_, hsize⟩

/-- No text holds too great a number for the variables that its length stands for. -/
theorem error_of_size (hreads : Hex.Reads read) {s : String} {n : Nat}
    (hn : s.utf8ByteSize = 2 ^ n) {e : Error} (h : ofHexBy read s = .error e) :
    e = .invalidHex ∨ e = .tooManyVariables 31 := by
  simp only [ofHexBy, hn, Nat.log2_two_pow, if_pos] at h
  cases hread : read s.toList with
  | none =>
    rw [hread] at h
    cases h
    exact .inl rfl
  | some packed =>
    rw [hread] at h
    change ofPacked (n + 2) packed = .error e at h
    have hlength : s.toList.length ≤ 2 ^ n := by
      rw [← hn, ← String.utf8Len_toList]
      exact length_le_utf8Len s.toList
    have hpow : 2 ^ (2 ^ (n + 2) : Nat) = 16 ^ (2 ^ n : Nat) := by
      rw [two_pow_eq_four_mul (Nat.le_add_left 2 n), Nat.pow_mul, Nat.add_sub_cancel]
    have hlt : packed < 2 ^ (2 ^ (n + 2) : Nat) := by
      rw [hpow]
      exact Nat.lt_of_lt_of_le (hreads.lt hread) (Nat.pow_le_pow_right (by decide) hlength)
    rcases Nat.lt_or_ge 31 (n + 2) with hover | hle
    · rw [ofPacked_of_lt hover] at h
      cases h
      exact .inr rfl
    · have hpos : 0 < n + 2 := Nat.succ_pos (n + 1)
      obtain ⟨t, ht, -⟩ := exists_ofPacked hpos hle hlt
      rw [ht] at h
      cases h

theorem error_of_ofHexBy (hreads : Hex.Reads read) {s : String} {e : Error}
    (h : ofHexBy read s = .error e) :
    (e = .wrongHexLength ∧ ¬ ∃ n, s.utf8ByteSize = 2 ^ n) ∨
      ((e = .invalidHex ∨ e = .tooManyVariables 31) ∧ ∃ n, s.utf8ByteSize = 2 ^ n) := by
  by_cases hsize : ∃ n, s.utf8ByteSize = 2 ^ n
  · obtain ⟨n, hn⟩ := hsize
    exact .inr ⟨error_of_size hreads hn h, n, hn⟩
  · rw [ofHexBy_of_ne hsize] at h
    cases h
    exact .inl ⟨rfl, hsize⟩

/-- A canonical table of two or more variables is written in lower case, a digit for every four
outputs, and read back; a text of digits of either case whose number is a power of two is read as a
table and written back in lower case. Reading fails for the length exactly where the bytes are not
as many as a power of two, and never for want of variables or for too many outputs. A table is
written to any width: memory and the width of padding are taken to be unbounded, also from 18
variables on, where 16 bits no longer hold the number of digits. -/
theorem hex_round_trip (hreads : Hex.Reads read) :
    (∀ t : TruthTable, 2 ≤ t.arity → (t.isSmall = true ↔ t.arity ≤ 6) →
      t.hex.length = 2 ^ (t.arity - 2) ∧
      (∀ k, k < 2 ^ (t.arity - 2) →
        ∃ (c : Char) (d : Nat), t.hex.toList.reverse[k]? = some c ∧ Hex.lowerDigits[d]? = some c ∧
          ∀ i, i < 4 → t.output (4 * k + i) = .ok (d.testBit i)) ∧
      ofHexBy read t.hex = .ok t) ∧
    (∀ s : String, (∀ c ∈ s.toList, c ∈ Hex.lowerDigits ∨ c ∈ Hex.upperDigits) →
      ∀ n, n ≤ 29 → s.length = 2 ^ n →
        ∃ t, ofHexBy read s = .ok t ∧ t.arity = n + 2 ∧ t.hex = s.toLower) ∧
    (∀ s : String,
      ofHexBy read s ≠ .error .noVariables ∧ ofHexBy read s ≠ .error .tableTooLarge) ∧
    ∀ s : String, ofHexBy read s = .error .wrongHexLength ↔ ¬ ∃ n, s.utf8ByteSize = 2 ^ n := by
  refine ⟨?_, ?_, ?_, ?_⟩
  · intro t hge hs
    exact ⟨length_hex hge, fun k => exists_digit hge, ofHexBy_hex hreads.digits hge hs⟩
  · intro s h n hn hl
    exact exists_ofHexBy_toLower hreads.digits h hn hl
  · intro s
    constructor
    · intro h
      obtain ⟨hother, -⟩ | ⟨hother | hother, -⟩ := error_of_ofHexBy hreads h <;> cases hother
    · intro h
      obtain ⟨hother, -⟩ | ⟨hother | hother, -⟩ := error_of_ofHexBy hreads h <;> cases hother
  · intro s
    refine ⟨?_, ofHexBy_of_ne⟩
    intro h
    obtain ⟨-, hsize⟩ | ⟨hother | hother, -⟩ := error_of_ofHexBy hreads h
    · exact hsize
    · cases hother
    · cases hother

/-- A table of two variables is one digit; six variables are the digits of a word, in any case; and
three bytes are no power of two. -/
theorem hex_round_trip_example :
    Hex.Reads Hex.read? ∧ ∃ t u, ofPacked 2 0b1011 = .ok t ∧
      2 ≤ t.arity ∧ (t.isSmall = true ↔ t.arity ≤ 6) ∧ t.hex.length = 1 ∧
      ofHex t.hex = .ok t ∧
      (∀ c ∈ "00f1E2d3C4b5A697".toList, c ∈ Hex.lowerDigits ∨ c ∈ Hex.upperDigits) ∧ 4 ≤ 29 ∧
      "00f1E2d3C4b5A697".length = 2 ^ (4 : Nat) ∧ ofHex "00f1E2d3C4b5A697" = .ok u ∧ u.arity = 6 ∧
      u.hex = "00f1e2d3c4b5a697" ∧
      ofHex "e8f" = .error .wrongHexLength ∧ ofHex "" = .error .wrongHexLength := by
  obtain ⟨htables, htexts, -, hlengths⟩ := hex_round_trip Hex.reads_read?
  obtain ⟨t, ht, harity, hsmall⟩ : ∃ t, ofPacked 2 0b1011 = .ok t ∧ t.arity = 2 ∧
      t.isSmall = true :=
    ⟨_, rfl, rfl, rfl⟩
  have hge : 2 ≤ t.arity := Nat.le_of_eq harity.symm
  have hkind : t.isSmall = true ↔ t.arity ≤ 6 := iff_of_true hsmall (by omega)
  obtain ⟨hlength, -, hread⟩ := htables t hge hkind
  have hall : "00f1E2d3C4b5A697".toList.all fun c =>
      c ∈ Hex.lowerDigits ∨ c ∈ Hex.upperDigits := by decide +kernel
  have hdigits : ∀ c ∈ "00f1E2d3C4b5A697".toList, c ∈ Hex.lowerDigits ∨ c ∈ Hex.upperDigits :=
    fun c hc => of_decide_eq_true (List.all_eq_true.1 hall c hc)
  have hcount : "00f1E2d3C4b5A697".length = 2 ^ (4 : Nat) := by decide +kernel
  obtain ⟨u, hu, huarity, hutext⟩ := htexts _ hdigits 4 (by decide) hcount
  have hthree : ¬ ∃ n, "e8f".utf8ByteSize = 2 ^ n := by
    rintro ⟨n, hn⟩
    have hsize : "e8f".utf8ByteSize = 3 := by decide +kernel
    have hpower : (2 ^ n).log2 = n := Nat.log2_two_pow
    rw [← hn, hsize] at hpower
    have hone : n = 1 := hpower.symm
    subst hone
    cases hsize.symm.trans hn
  have hnone : ¬ ∃ n, "".utf8ByteSize = 2 ^ n :=
    fun ⟨n, hn⟩ => Nat.ne_of_lt (Nat.two_pow_pos n) hn
  have hlower : "00f1E2d3C4b5A697".toLower = "00f1e2d3c4b5a697" := by decide +kernel
  rw [harity] at hlength
  exact ⟨Hex.reads_read?, t, u, ht, hge, hkind, hlength, hread, hdigits, by decide, hcount, hu, huarity,
    hutext.trans hlower, (hlengths _).2 hthree, (hlengths _).2 hnone⟩

end TruthTable

end Keystream
