import Keystream.Proofs.HexRoundTrip

/-!
# Hexadecimal numerals

Reading a table takes more than digits. A plus sign may stand in front of them, underscores between
and behind them; neither adds to the number, but both add to the length of the text and so to the
number of variables. A text that is read is read like its digits alone, with zeros in front in place
of the other characters, and that is how the table is written.
-/

namespace Keystream

namespace Hex

/-- The digits of a text, with zeros in front up to the length of the text in bytes. -/
def plain (s : String) : String :=
  String.ofList (List.replicate (s.utf8ByteSize - (digits s.toList).length) '0' ++ digits s.toList)

section Plain

variable {s : String}

theorem isDigit_of_mem_plain {c : Char} (h : c ∈ (plain s).toList) : IsDigit c := by
  rw [plain, String.toList_ofList] at h
  rcases List.mem_append.1 h with h | h
  · obtain rfl := List.eq_of_mem_replicate h
    decide
  · exact isDigit_of_mem_digits h

theorem length_plain : (plain s).length = s.utf8ByteSize := by
  have hle : (digits s.toList).length ≤ s.utf8ByteSize := by
    rw [← String.utf8Len_toList]
    exact Nat.le_trans (List.length_filter_le _ _) (length_le_utf8Len _)
  rw [plain, String.length_ofList, List.length_append, List.length_replicate,
    Nat.sub_add_cancel hle]

theorem utf8ByteSize_plain : (plain s).utf8ByteSize = s.utf8ByteSize := by
  rw [← String.utf8Len_toList, utf8Len_of_digits fun _ => isDigit_of_mem_plain,
    String.length_toList, length_plain]

theorem Reads.read_plain {read : List Char → Option Nat} (hreads : Reads read)
    (h : Numeral s.toList) : read s.toList = read (plain s).toList := by
  rw [hreads.eq_digits h, plain, String.toList_ofList,
    hreads.zeros (fun c => isDigit_of_mem_digits) h.digits_ne_nil]

theorem plain_eq_self (h : ∀ c ∈ s.toList, IsDigit c) : plain s = s := by
  rw [plain, digits_eq_self h, ← String.utf8Len_toList, utf8Len_of_digits h, Nat.sub_self,
    List.replicate_zero, List.nil_append, String.ofList_toList]

/-- Neither the sign nor an underscore is among the digits in lower case. -/
theorem isDigit_of_toLower_plain {c : Char} (hc : IsDigit c ∨ c = '+' ∨ c = '_')
    (h : c.toLower ∈ (plain s).toLower.toList) : IsDigit c := by
  have htoLower : (plain s).toLower = (plain s).map Char.toLower := rfl
  rw [htoLower, String.toList_map] at h
  obtain ⟨p, hp, hlower⟩ := List.mem_map.1 h
  obtain ⟨d, hd, -, hdigit⟩ := exists_value? (isDigit_of_mem_plain hp)
  have hvalue : value? c.toLower = some d := by rw [← hlower, hdigit, value?_digit hd]
  rcases hc with hc | rfl | rfl
  · exact hc
  · cases hvalue
  · cases hvalue

end Plain

end Hex

namespace TruthTable

open Hex

variable {read : List Char → Option Nat} {s : String} {n : Nat}

theorem ofHexBy_congr {u : String} (hsize : s.utf8ByteSize = u.utf8ByteSize)
    (hread : read s.toList = read u.toList) : ofHexBy read s = ofHexBy read u := by
  simp only [ofHexBy, hsize, hread]

theorem ofHexBy_of_not_numeral (hreads : Reads read) (hs : s.utf8ByteSize = 2 ^ n)
    (h : ¬ Numeral s.toList) : ofHexBy read s = .error .invalidHex := by
  have hread : read s.toList = none := by
    cases hread : read s.toList with
    | none => rfl
    | some v => exact absurd (hreads.numeral_of_some hread) h
  simp only [ofHexBy, hs, Nat.log2_two_pow, if_pos, hread]

theorem exists_ofHexBy_plain (hreads : Reads read) (hn : n ≤ 29) (hs : s.utf8ByteSize = 2 ^ n)
    (h : Numeral s.toList) :
    ∃ t, ofHexBy read s = .ok t ∧ t.arity = n + 2 ∧ t.hex = (plain s).toLower := by
  rw [ofHexBy_congr utf8ByteSize_plain.symm (hreads.read_plain h)]
  exact exists_ofHexBy_toLower hreads.digits (fun c => isDigit_of_mem_plain) hn
    (length_plain.trans hs)

theorem numeral_of_ofHexBy (hreads : Reads read) (hs : s.utf8ByteSize = 2 ^ n) {t : TruthTable}
    (h : ofHexBy read s = .ok t) : Numeral s.toList := by
  by_contra hnot
  rw [ofHexBy_of_not_numeral hreads hs hnot] at h
  cases h

theorem toLower_plain_eq_iff (h : Numeral s.toList) :
    (plain s).toLower = s.toLower ↔ ∀ c ∈ s.toList, IsDigit c := by
  constructor
  · intro heq c hc
    apply isDigit_of_toLower_plain (s := s) (h.isDigit_or c hc)
    have htoLower : s.toLower = s.map Char.toLower := rfl
    rw [heq, htoLower, String.toList_map]
    exact List.mem_map_of_mem hc
  · intro hall
    rw [plain_eq_self hall]

/-- Of the texts whose bytes are as many as a power of two, exactly the numerals are read, and the
others are refused for their characters. The table is written as the plain digits of the text in
lower case, which are the text itself only if it has nothing but digits; and a text without sign and
underscore is read only if it has nothing but digits. As in `hex_round_trip`, a table is written to
any width. -/
theorem hex_reads_numerals (hreads : Reads read) (hn : n ≤ 29) (hs : s.utf8ByteSize = 2 ^ n) :
    ((∃ t, ofHexBy read s = .ok t) ↔ Numeral s.toList) ∧
    (¬ Numeral s.toList → ofHexBy read s = .error .invalidHex) ∧
    (∀ t, ofHexBy read s = .ok t → t.arity = n + 2 ∧ t.hex = (plain s).toLower ∧
      (t.hex = s.toLower ↔ ∀ c ∈ s.toList, IsDigit c)) ∧
    ('+' ∉ s.toList → '_' ∉ s.toList →
      ((∃ t, ofHexBy read s = .ok t) ↔ ∀ c ∈ s.toList, IsDigit c)) := by
  have hnumerals : (∃ t, ofHexBy read s = .ok t) ↔ Numeral s.toList := by
    constructor
    · rintro ⟨t, ht⟩
      exact numeral_of_ofHexBy hreads hs ht
    · intro h
      obtain ⟨t, ht, -⟩ := exists_ofHexBy_plain hreads hn hs h
      exact ⟨t, ht⟩
  refine ⟨hnumerals, ofHexBy_of_not_numeral hreads hs, ?_, ?_⟩
  · intro t ht
    have h := numeral_of_ofHexBy hreads hs ht
    obtain ⟨u, hu, harity, hhex⟩ := exists_ofHexBy_plain hreads hn hs h
    obtain rfl : u = t := Except.ok.inj (hu.symm.trans ht)
    exact ⟨harity, hhex, hhex ▸ toLower_plain_eq_iff h⟩
  · intro hplus hunder
    rw [hnumerals]
    constructor
    · intro h c hc
      rcases h.isDigit_or c hc with hdigit | rfl | rfl
      · exact hdigit
      · exact absurd hc hplus
      · exact absurd hc hunder
    · intro h
      apply numeral_of_digits _ h
      intro hnil
      rw [← String.utf8Len_toList, hnil] at hs
      exact Nat.ne_of_lt (Nat.two_pow_pos n) hs

/-- A sign and an underscore stand for zeros; a letter beyond the digits is refused. -/
theorem hex_reads_numerals_example :
    Reads read? ∧ 2 ≤ 29 ∧ "+1_F".utf8ByteSize = 2 ^ (2 : Nat) ∧ Numeral "+1_F".toList ∧
    (∃ t, ofHex "+1_F" = .ok t ∧ t.arity = 4 ∧ t.hex = "001f" ∧ t.hex ≠ "+1_F".toLower) ∧
    "0g".utf8ByteSize = 2 ^ (1 : Nat) ∧ ¬ Numeral "0g".toList ∧ ofHex "0g" = .error .invalidHex ∧
    '+' ∉ "E8".toList ∧ '_' ∉ "E8".toList ∧ ∃ t, ofHex "E8" = .ok t := by
  have hsize : "+1_F".utf8ByteSize = 2 ^ (2 : Nat) := by decide +kernel
  have hsize' : "0g".utf8ByteSize = 2 ^ (1 : Nat) := by decide +kernel
  have hsize'' : "E8".utf8ByteSize = 2 ^ (1 : Nat) := by decide +kernel
  have htext : "+1_F".toList = ['+', '1', '_', 'F'] := by decide +kernel
  have htext' : "0g".toList = ['0', 'g'] := by decide +kernel
  have htext'' : "E8".toList = ['E', '8'] := by decide +kernel
  have hplain : (plain "+1_F").toLower = "001f" := by decide +kernel
  have hnumeral : Numeral "+1_F".toList := by
    rw [htext]
    exact .signed (by decide)
      (List.forall_mem_cons.2 ⟨.inr rfl, List.forall_mem_singleton.2 (.inl (by decide))⟩)
  have hletter : ¬ Numeral "0g".toList := by
    rw [htext']
    intro h
    exact absurd (h.isDigit_or 'g' (by decide)) (by decide)
  have hplus : '+' ∉ "E8".toList := by
    rw [htext'']
    decide
  have hunder : '_' ∉ "E8".toList := by
    rw [htext'']
    decide
  obtain ⟨hreads, -, hwritten, -⟩ := hex_reads_numerals (n := 2) reads_read? (by decide) hsize
  obtain ⟨-, hrefused, -⟩ := hex_reads_numerals (n := 1) reads_read? (by decide) hsize'
  obtain ⟨-, -, -, hdigits⟩ := hex_reads_numerals (n := 1) reads_read? (by decide) hsize''
  obtain ⟨t, ht⟩ := hreads.2 hnumeral
  obtain ⟨harity, hhex, hsame⟩ := hwritten t ht
  have hsigned : ¬ ∀ c ∈ "+1_F".toList, IsDigit c := by
    rw [htext]
    exact fun h => not_isDigit_plus (h '+' List.mem_cons_self)
  have hall : ∀ c ∈ "E8".toList, IsDigit c := by
    rw [htext'']
    exact List.forall_mem_cons.2 ⟨by decide, List.forall_mem_singleton.2 (by decide)⟩
  exact ⟨reads_read?, by decide, hsize, hnumeral,
    ⟨t, ht, harity, hhex.trans hplain, fun h => hsigned (hsame.1 h)⟩, hsize', hletter,
    hrefused hletter, hplus, hunder, (hdigits hplus hunder).2 hall⟩

/-- Texts that are read need not have digits only, nor are they written back as they are: a sign in
front of one digit is read as a table of three variables. -/
theorem hex_sign_not_refused :
    ¬ ∀ (s : String) (n : Nat), n ≤ 29 → s.utf8ByteSize = 2 ^ n →
      ((∃ t, ofHex s = .ok t) ↔ ∀ c ∈ s.toList, IsDigit c) ∧
      ((¬ ∀ c ∈ s.toList, IsDigit c) → ofHex s = .error .invalidHex) ∧
      ∀ t, ofHex s = .ok t → t.hex = s.toLower := by
  intro h
  have hsize : "+1".utf8ByteSize = 2 ^ (1 : Nat) := by decide +kernel
  have htext : "+1".toList = ['+', '1'] := by decide +kernel
  have hnumeral : Numeral "+1".toList := by
    rw [htext]
    exact .signed (by decide) (List.forall_mem_nil _)
  obtain ⟨t, ht, -⟩ := exists_ofHexBy_plain reads_read? (by decide) hsize hnumeral
  have hdigits := (h "+1" 1 (by decide) hsize).1.1 ⟨t, ht⟩
  rw [htext] at hdigits
  exact not_isDigit_plus (hdigits '+' List.mem_cons_self)

end TruthTable

end Keystream
