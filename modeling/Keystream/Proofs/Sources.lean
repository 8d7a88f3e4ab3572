import Keystream.Proofs.BitLists
import Keystream.Proofs.HexText
import Keystream.Proofs.Storage

/-!
# Ways to make tables

The same function can be given as a list of outputs, as a number or a word that packs them, as
hexadecimal digits, as a constant or as a normal form. All of these make one and the same table,
which answers for the function, and each of them leaves a canonical table whatever it is given.
-/

namespace Keystream

theorem exists_error_iff {α : Type} {result : Except Error α} :
    (∃ e, result = .error e) ↔ ¬ ∃ a, result = .ok a := by
  cases result with
  | error e => exact iff_of_true ⟨e, rfl⟩ fun ⟨_, h⟩ => by cases h
  | ok a => exact iff_of_false (fun ⟨_, h⟩ => by cases h) fun h => h ⟨a, rfl⟩

theorem bind_eq_ok {α β : Type} {result : Except Error α} {f : α → Except Error β} {b : β} :
    result >>= f = .ok b ↔ ∃ a, result = .ok a ∧ f a = .ok b := by
  cases result with
  | error e => exact iff_of_false (fun h => by cases h) fun ⟨_, h, _⟩ => by cases h
  | ok a => exact ⟨fun h => ⟨a, rfl, h⟩, fun ⟨_, h, hf⟩ => by cases h; exact hf⟩

namespace TruthTable

inductive Source where
  | numbers (arity : Nat) (values : List Nat)
  | packed (arity packed : Nat)
  | word (arity : Nat) (outputs : UInt64)
  | hex (s : String)
  | constant (arity : Nat) (b : Bool)
  | form (f : NormalForm)

namespace Source

/-- The table that a source makes, where digits are read by a given reader of numbers. -/
def buildBy (read : List Char → Option Nat) : Source → Except Error TruthTable
  | numbers arity values => ofNumbers arity values
  | .packed arity v => ofPacked arity v
  | word arity outputs => ofWord arity outputs
  | hex s => ofHexBy read s
  | constant arity b => TruthTable.constant arity b
  | form f => f.table

def build (s : Source) : Except Error TruthTable :=
  s.buildBy Hex.read?

/-- What gives the function of `arity` variables that is `g x` at input `x`. -/
inductive Describes (arity : Nat) (g : Nat → Bool) : Source → Prop where
  | numbers : Describes arity g (.numbers arity ((List.range (2 ^ arity)).map fun x => (g x).toNat))
  | packed : Describes arity g (.packed arity (pack arity g))
  | word {w : UInt64} (hle : arity ≤ 6) (hw : w.toNat = pack arity g) :
      Describes arity g (.word arity w)
  | hex {s : String} (hge : 2 ≤ arity) (hs : HexSpells arity g s) : Describes arity g (.hex s)
  | constant {b : Bool} (hb : ∀ x, x < 2 ^ arity → g x = b) : Describes arity g (.constant arity b)
  | form {f : NormalForm} (ha : f.arity = arity)
      (hf : ∀ x, x < 2 ^ arity → f.eval (UInt64.ofNat x) = g x) : Describes arity g (.form f)

end Source

variable {read : List Char → Option Nat} {arity : Nat} {g : Nat → Bool}

theorem exists_ofNumbers (hpos : 0 < arity) (hle : arity ≤ 31) {values : List Nat}
    (hlength : values.length = 2 ^ arity) (hbits : ∀ v ∈ values, v ≤ 1) :
    ∃ t, ofNumbers arity values = .ok t ∧
      t.Canonical arity (Bits.toNat (values.map (· == 1))) := by
  have hfind : values.find? (1 < ·) = none := by
    rw [List.find?_eq_none]
    intro v hv
    rw [decide_eq_true_eq]
    exact Nat.not_lt.2 (hbits v hv)
  have hlt := Bits.toNat_lt (values.map (· == 1))
  rw [List.length_map, hlength] at hlt
  have hread : BitVector.ofNumbers values = .ok (.ofBits (values.map (· == 1))) := by
    rw [BitVector.ofNumbers_eq, hfind]
  simp only [ofNumbers, checkArity_of_range hpos hle, if_pos hlength, hread]
  have htable := exists_ofPacked hpos hle hlt
  rw [← BitVector.toNat_ofBits] at htable ⊢
  exact htable

theorem exists_ofNumbers_map (hpos : 0 < arity) (hle : arity ≤ 31) (g : Nat → Bool) :
    ∃ t, ofNumbers arity ((List.range (2 ^ arity)).map fun x => (g x).toNat) = .ok t ∧
      t.Canonical arity (pack arity g) := by
  let values := (List.range (2 ^ arity)).map fun x => (g x).toNat
  have hlength : values.length = 2 ^ arity := by rw [List.length_map, List.length_range]
  have hbits : ∀ v ∈ values, v ≤ 1 := by
    intro v hv
    obtain ⟨x, -, rfl⟩ := List.mem_map.1 hv
    exact Bool.toNat_le (g x)
  have hread : values.map (· == 1) = (List.range (2 ^ arity)).map g := by
    rw [List.map_map]
    apply List.map_congr_left
    intro x _
    rw [Function.comp_apply]
    cases g x <;> rfl
  have htable := exists_ofNumbers hpos hle hlength hbits
  rw [hread] at htable
  exact htable

theorem exists_constant (hpos : 0 < arity) (hle : arity ≤ 31) (b : Bool) :
    ∃ t, constant arity b = .ok t ∧ t.Canonical arity (pack arity fun _ => b) := by
  have hpacked : (if b then 2 ^ (2 ^ arity : Nat) - 1 else 0) = pack arity fun _ => b := by
    apply eq_pack
    intro x
    cases b with
    | true => simp
    | false => simp
  simp only [constant, checkArity_of_range hpos hle, hpacked]
  exact exists_ofPacked hpos hle (pack_lt arity _)

theorem Source.Describes.exists_buildBy (hdigits : Hex.ReadsDigits read) {s : Source}
    (hpos : 0 < arity) (hle : arity ≤ 31) (h : s.Describes arity g) :
    ∃ t, s.buildBy read = .ok t ∧ t.Canonical arity (pack arity g) := by
  cases h with
  | numbers => exact exists_ofNumbers_map hpos hle g
  | packed => exact exists_ofPacked hpos hle (pack_lt arity g)
  | word hsmall hw =>
    rw [← hw]
    exact exists_ofWord hpos hsmall (hw.symm ▸ pack_lt arity g)
  | hex hge hs => exact exists_ofHexBy hdigits hge hle hs
  | constant hb =>
    rw [pack_congr hb]
    exact exists_constant hpos hle _
  | form ha hf =>
    subst ha
    rw [← pack_congr hf]
    exact exists_tabulate_canonical hpos hle _

/-- The table answers for the function of `arity` variables that is `g x` at input `x`. -/
structure Tabulates (t : TruthTable) (arity : Nat) (g : Nat → Bool) : Prop where
  arity_eq : t.arity = arity
  isSmall_iff : t.isSmall = true ↔ arity ≤ 6
  output_of_lt : ∀ x, x < 2 ^ arity → t.output x = .ok (g x)
  output_of_le : ∀ x, 2 ^ arity ≤ x → t.output x = .error (.inputOutOfRange x (2 ^ arity - 1))
  outputOf_of_eq : ∀ v : BitVector, v.length = arity → t.outputOf v = .ok (g v.lowWord.toNat)
  outputOf_of_ne : ∀ v : BitVector, v.length ≠ arity →
    t.outputOf v = .error (.lengthMismatch arity v.length)
  toList_eq : t.start.toList = (List.range (2 ^ arity)).map g
  weight_eq : t.weight = (List.range (2 ^ arity)).countP g
  hex_spells : 2 ≤ arity → HexSpells arity g t.hex

theorem Canonical.tabulates {t : TruthTable} (h : t.Canonical arity (pack arity g)) :
    t.Tabulates arity g where
  arity_eq := h.arity_eq
  isSmall_iff := h.isSmall_iff
  output_of_lt x hx := by
    rw [t.output_of_lt (h.arity_eq.symm ▸ hx), h.lookup_eq hx]
  output_of_le x hx := by
    rw [t.output_of_le (h.arity_eq.symm ▸ hx), h.arity_eq]
  outputOf_of_eq v hv := by
    rw [outputOf, if_pos (hv.trans h.arity_eq.symm), h.lookup_eq (hv ▸ v.lowWord_lt)]
  outputOf_of_ne v hv := by
    rw [outputOf, h.arity_eq, if_neg hv]
  toList_eq := by
    rw [toList_start, h.arity_eq]
    exact List.map_congr_left fun x hx => h.lookup_eq (List.mem_range.1 hx)
  weight_eq := by
    rw [weight_eq_ones, h.packed_eq, Bits.ones_eq_countP (pack_lt arity g)]
    apply List.countP_congr
    intro x hx
    rw [testBit_pack, decide_eq_true (List.mem_range.1 hx), Bool.true_and]
  hex_spells hge := by
    obtain rfl := h.arity_eq
    exact (hexSpells_hex hge).congr hge fun x => h.lookup_eq

theorem range_of_checkArity {u : Unit} (h : checkArity arity = .ok u) : 0 < arity ∧ arity ≤ 31 := by
  unfold checkArity at h
  split at h
  · cases h
  · next hpos =>
    split at h
    · cases h
    · next hle => exact ⟨Nat.pos_of_ne_zero hpos, Nat.le_of_not_lt hle⟩

theorem lt_of_ofWord {w : UInt64} {t : TruthTable} (h : ofWord arity w = .ok t) :
    (0 < arity ∧ arity ≤ 6) ∧ w.toNat < 2 ^ (2 ^ arity : Nat) := by
  unfold ofWord SmallTable.ofWord at h
  split at h
  · cases h
  · next hpos =>
    split at h
    · cases h
    · next hle =>
      split at h
      · next hw =>
        have hle := Nat.le_of_not_lt hle
        exact ⟨⟨Nat.pos_of_ne_zero hpos, hle⟩, (SmallTable.overflows_eq_false_iff hle w).1 hw⟩
      · cases h

theorem lt_of_ofPacked {v : Nat} {t : TruthTable} (h : ofPacked arity v = .ok t) :
    (0 < arity ∧ arity ≤ 31) ∧ v < 2 ^ (2 ^ arity : Nat) := by
  obtain ⟨_, hcheck, h⟩ := bind_eq_ok.1 h
  refine ⟨range_of_checkArity hcheck, ?_⟩
  split at h
  · next hv => exact Bits.fits_iff.1 hv
  · cases h

/-- What has been read as numbers is read as a number. -/
theorem exists_of_ofNumbers {values : List Nat} {t : TruthTable}
    (h : ofNumbers arity values = .ok t) :
    values.length = 2 ^ arity ∧ (∀ v ∈ values, v ≤ 1) ∧ ∃ v, ofPacked arity v = .ok t := by
  obtain ⟨_, -, h⟩ := bind_eq_ok.1 h
  split at h
  · next hlength =>
    obtain ⟨bits, hbits, h⟩ := bind_eq_ok.1 h
    rw [BitVector.ofNumbers_eq] at hbits
    split at hbits
    · cases hbits
    · next hfind =>
      refine ⟨hlength, ?_, _, h⟩
      intro v hv
      have := List.find?_eq_none.1 hfind v hv
      rw [decide_eq_true_eq] at this
      exact Nat.le_of_not_lt this
  · cases h

theorem canonical_of_exists {result : Except Error TruthTable} {v : Nat} {t : TruthTable}
    (hexists : ∃ u, result = .ok u ∧ u.Canonical arity v) (h : result = .ok t) :
    t.Canonical t.arity t.packed := by
  obtain ⟨u, hu, hc⟩ := hexists
  obtain rfl : u = t := Except.ok.inj (hu.symm.trans h)
  exact hc.arity_eq ▸ hc.packed_eq ▸ hc

theorem canonical_of_ofPacked {v : Nat} {t : TruthTable} (h : ofPacked arity v = .ok t) :
    t.Canonical t.arity t.packed := by
  obtain ⟨⟨hpos, hle⟩, hv⟩ := lt_of_ofPacked h
  exact canonical_of_exists (exists_ofPacked hpos hle hv) h

theorem canonical_of_buildBy {s : Source} {t : TruthTable} (h : s.buildBy read = .ok t) :
    t.Canonical t.arity t.packed := by
  cases s with
  | numbers arity values =>
    obtain ⟨-, -, v, hv⟩ := exists_of_ofNumbers h
    exact canonical_of_ofPacked hv
  | packed arity v => exact canonical_of_ofPacked h
  | word arity w =>
    obtain ⟨⟨hpos, hle⟩, hw⟩ := lt_of_ofWord h
    exact canonical_of_exists (exists_ofWord hpos hle hw) h
  | hex s =>
    unfold Source.buildBy ofHexBy at h
    dsimp only at h
    split at h
    · split at h
      · exact canonical_of_ofPacked h
      · cases h
    · cases h
  | constant arity b =>
    obtain ⟨_, -, h⟩ := bind_eq_ok.1 h
    exact canonical_of_ofPacked h
  | form f =>
    obtain ⟨_, hcheck, -⟩ := bind_eq_ok.1 h
    obtain ⟨hpos, hle⟩ := range_of_checkArity hcheck
    exact canonical_of_exists (exists_tabulate_canonical hpos hle _) h

/-- Tables that have been made are the same if they have the same outputs. -/
theorem eq_iff_output {a b : Source} {t u : TruthTable} (ht : a.buildBy read = .ok t)
    (hu : b.buildBy read = .ok u) :
    t = u ↔ t.arity = u.arity ∧ ∀ x, x < 2 ^ t.arity → t.output x = u.output x := by
  constructor
  · rintro rfl
    exact ⟨rfl, fun _ _ => rfl⟩
  · rintro ⟨ha, houtput⟩
    have hsmall : t.isSmall = u.isSmall := by
      rw [Bool.eq_iff_iff, (canonical_of_buildBy ht).isSmall_iff,
        (canonical_of_buildBy hu).isSmall_iff, ha]
    apply ext_lookup hsmall ha
    intro x hx
    have hx' := houtput x hx
    rw [t.output_of_lt hx, u.output_of_lt (ha ▸ hx)] at hx'
    exact Except.ok.inj hx'

theorem ofNumbers_fails_iff {values : List Nat} :
    (∃ e, ofNumbers arity values = .error e) ↔
      arity = 0 ∨ 31 < arity ∨ values.length ≠ 2 ^ arity ∨ ∃ v ∈ values, 1 < v := by
  have hok : (∃ t, ofNumbers arity values = .ok t) ↔
      0 < arity ∧ arity ≤ 31 ∧ values.length = 2 ^ arity ∧ ∀ v ∈ values, v ≤ 1 := by
    constructor
    · rintro ⟨t, ht⟩
      obtain ⟨hlength, hbits, v, hv⟩ := exists_of_ofNumbers ht
      obtain ⟨⟨hpos, hle⟩, -⟩ := lt_of_ofPacked hv
      exact ⟨hpos, hle, hlength, hbits⟩
    · rintro ⟨hpos, hle, hlength, hbits⟩
      obtain ⟨t, ht, -⟩ := exists_ofNumbers hpos hle hlength hbits
      exact ⟨t, ht⟩
  rw [exists_error_iff, hok]
  simp only [not_and_or, not_forall, exists_prop, Nat.not_lt, Nat.le_zero, Nat.not_le, ne_eq]

theorem ofPacked_fails_iff {v : Nat} :
    (∃ e, ofPacked arity v = .error e) ↔
      arity = 0 ∨ 31 < arity ∨ 2 ^ (2 ^ arity : Nat) ≤ v := by
  have hok : (∃ t, ofPacked arity v = .ok t) ↔
      0 < arity ∧ arity ≤ 31 ∧ v < 2 ^ (2 ^ arity : Nat) := by
    constructor
    · rintro ⟨t, ht⟩
      exact and_assoc.1 (lt_of_ofPacked ht)
    · rintro ⟨hpos, hle, hv⟩
      obtain ⟨t, ht, -⟩ := exists_ofPacked hpos hle hv
      exact ⟨t, ht⟩
  rw [exists_error_iff, hok]
  simp only [not_and_or, Nat.not_lt, Nat.le_zero, Nat.not_le]

theorem ofWord_fails_iff {w : UInt64} :
    (∃ e, ofWord arity w = .error e) ↔
      arity = 0 ∨ 6 < arity ∨ 2 ^ (2 ^ arity : Nat) ≤ w.toNat := by
  have hok : (∃ t, ofWord arity w = .ok t) ↔
      0 < arity ∧ arity ≤ 6 ∧ w.toNat < 2 ^ (2 ^ arity : Nat) := by
    constructor
    · rintro ⟨t, ht⟩
      exact and_assoc.1 (lt_of_ofWord ht)
    · rintro ⟨hpos, hle, hw⟩
      obtain ⟨t, ht, -⟩ := exists_ofWord hpos hle hw
      exact ⟨t, ht⟩
  rw [exists_error_iff, hok]
  simp only [not_and_or, Nat.not_lt, Nat.le_zero, Nat.not_le]

/-- All that describes a function of 1 to 31 variables makes one table, which answers for it; two
tables that have been made are the same if they have the same outputs; and a list, a number or a
word of outputs is refused only for its size or for an entry that is no bit. -/
theorem sources_canonical (hdigits : Hex.ReadsDigits read) :
    (∀ arity, 0 < arity → arity ≤ 31 → ∀ g : Nat → Bool, ∃ t : TruthTable,
      (∀ s : Source, s.Describes arity g → s.buildBy read = .ok t) ∧ t.Tabulates arity g) ∧
    (∀ (a b : Source) (t u : TruthTable), a.buildBy read = .ok t → b.buildBy read = .ok u →
      (t = u ↔ t.arity = u.arity ∧ ∀ x, x < 2 ^ t.arity → t.output x = u.output x)) ∧
    (∀ arity values, (∃ e, ofNumbers arity values = .error e) ↔
      arity = 0 ∨ 31 < arity ∨ values.length ≠ 2 ^ arity ∨ ∃ v ∈ values, 1 < v) ∧
    (∀ arity v, (∃ e, ofPacked arity v = .error e) ↔
      arity = 0 ∨ 31 < arity ∨ 2 ^ (2 ^ arity : Nat) ≤ v) ∧
    ∀ arity w, (∃ e, ofWord arity w = .error e) ↔
      arity = 0 ∨ 6 < arity ∨ 2 ^ (2 ^ arity : Nat) ≤ w.toNat := by
  refine ⟨?_, fun a b t u => eq_iff_output, fun _ _ => ofNumbers_fails_iff,
    fun _ _ => ofPacked_fails_iff, fun _ _ => ofWord_fails_iff⟩
  intro arity hpos hle g
  obtain ⟨t, ht, hc⟩ := exists_ofPacked hpos hle (pack_lt arity g)
  refine ⟨t, ?_, hc.tabulates⟩
  intro s hs
  obtain ⟨u, hu, hcu⟩ := hs.exists_buildBy hdigits hpos hle
  rw [hu, hcu.unique hc]

/-- The sum of two variables, given in five ways; a constant of seven variables is another table. -/
theorem sources_canonical_example :
    Hex.ReadsDigits Hex.read? ∧ ∃ t f u, NormalForm.ofMonomials 2 [0b01, 0b10] = .ok f ∧
      0 < 2 ∧ 2 ≤ 31 ∧ ofNumbers 2 [0, 1, 1, 0] = .ok t ∧ ofPacked 2 6 = .ok t ∧
      ofWord 2 6 = .ok t ∧ ofHex "6" = .ok t ∧ f.table = .ok t ∧
      t.isSmall = true ∧ t.start.toList = [false, true, true, false] ∧ t.weight = 2 ∧
      0 < 7 ∧ 7 ≤ 31 ∧ constant 7 true = .ok u ∧ u.isSmall = false ∧ t ≠ u := by
  obtain ⟨hdescribed, hsame, -⟩ := sources_canonical Hex.readsDigits_read?
  obtain ⟨f, hf, ha, hvalues⟩ : ∃ f, NormalForm.ofMonomials 2 [0b01, 0b10] = .ok f ∧
      f.arity = 2 ∧ ∀ x, x < 2 ^ (2 : Nat) → f.eval (UInt64.ofNat x) = Nat.testBit 6 x :=
    ⟨_, rfl, rfl, by decide⟩
  obtain ⟨t, hmade, htable⟩ := hdescribed 2 (by decide) (by decide) (Nat.testBit 6)
  obtain ⟨u, hmade', hlarge⟩ := hdescribed 7 (by decide) (by decide) fun _ => true
  have hspells : HexSpells 2 (Nat.testBit 6) "6" := by
    rw [HexSpells]
    decide
  have hpacked := hmade _ .packed
  have hconstant := hmade' _ (.constant fun _ _ => rfl)
  have hne : t ≠ u := by
    rw [ne_eq, hsame _ _ t u hpacked hconstant, htable.arity_eq, hlarge.arity_eq]
    exact fun h => absurd h.1 (by decide)
  refine ⟨Hex.readsDigits_read?, t, f, u, hf, by decide, by decide, hmade _ .numbers, hpacked,
    hmade _ (.word (by decide) (by decide)), hmade _ (.hex (by decide) hspells),
    hmade _ (.form ha hvalues), htable.isSmall_iff.2 (by decide), htable.toList_eq, ?_,
    by decide, by decide, hconstant, ?_, hne⟩
  · rw [htable.weight_eq]
    decide
  · rw [Bool.eq_false_iff, ne_eq, hlarge.isSmall_iff]
    decide

end TruthTable

end Keystream
