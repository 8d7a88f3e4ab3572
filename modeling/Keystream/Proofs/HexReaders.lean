import Keystream.Hex
import Mathlib.Data.String.Basic

/-!
# Readers of hexadecimal numbers

`Reads` says what a reader of numbers does: digits of either case are read one after another, a plus
sign in front and underscores behind a digit are passed over, and nothing else is read. What such a
reader accepts is exactly the numerals, and it reads a numeral as its digits alone. `Hex.read?` is
one of these readers.
-/

namespace Keystream

namespace Hex

section Values

theorem le_of_value? {c : Char} {d : Nat} (h : value? c = some d) : c ≤ 'f' := by
  unfold value? at h
  split at h
  · next hc => exact Char.le_trans hc.2 (by decide)
  · split at h
    · next hc => exact hc.2
    · split at h
      · next hc => exact Char.le_trans hc.2 (by decide)
      · cases h

theorem toNat_le_of_le {c d : Char} (h : c ≤ d) : c.toNat ≤ d.toNat :=
  UInt32.le_iff_toNat_le.1 h

theorem utf8Size_of_value? {c : Char} {d : Nat} (h : value? c = some d) : c.utf8Size = 1 := by
  rw [Char.utf8Size_eq_one_iff]
  exact Nat.le_trans (UInt32.le_iff_toNat_le.1 (le_of_value? h)) (by decide)

theorem ne_of_value? {c d : Char} {v : Nat} (h : value? c = some v) (hd : value? d = none) :
    c ≠ d := by
  rintro rfl
  rw [hd] at h
  cases h

theorem utf8Len_eq {cs : List Char} {ds : List Nat} (h : cs.map value? = ds.map some) :
    String.utf8Len cs = ds.length := by
  induction cs generalizing ds with
  | nil =>
    obtain rfl : ds = [] := List.map_eq_nil_iff.1 h.symm
    rfl
  | cons c cs ih =>
    cases ds with
    | nil => cases h
    | cons d ds =>
      obtain ⟨hc, hcs⟩ := List.cons.inj h
      rw [String.utf8Len_cons, ih hcs, utf8Size_of_value? hc, List.length_cons]

end Values

section Digits

def lowerDigits : List Char := "0123456789abcdef".toList

def upperDigits : List Char := "0123456789ABCDEF".toList

theorem getElem?_lowerDigits {d : Nat} (h : d < 16) : lowerDigits[d]? = some (digit d) := by
  have all : ∀ d : Fin 16, lowerDigits[d.val]? = some (digit d) := by decide
  exact all ⟨d, h⟩

theorem exists_value? {c : Char} (h : c ∈ lowerDigits ∨ c ∈ upperDigits) :
    ∃ d, d < 16 ∧ value? c = some d ∧ c.toLower = digit d := by
  have all : (lowerDigits ++ upperDigits).all fun c =>
      (value? c).any fun d => d < 16 && c.toLower == digit d := by decide
  obtain ⟨d, hd, hdigit⟩ := (Option.any_eq_true _ _).1
    (List.all_eq_true.1 all c (List.mem_append.2 h))
  rw [Bool.and_eq_true, decide_eq_true_eq, beq_iff_eq] at hdigit
  exact ⟨d, hdigit.1, hd, hdigit.2⟩

def IsDigit (c : Char) : Prop :=
  c ∈ lowerDigits ∨ c ∈ upperDigits

instance (c : Char) : Decidable (IsDigit c) :=
  inferInstanceAs (Decidable (c ∈ lowerDigits ∨ c ∈ upperDigits))

theorem isDigit_of_value? {c : Char} {d : Nat} (h : value? c = some d) : IsDigit c := by
  -- Nothing beyond the letter f has a value, so that few characters are left to try.
  have all : ∀ n : Fin 103, (value? (Char.ofNat n)).isSome = true → IsDigit (Char.ofNat n) := by
    decide +kernel
  have hlt : c.toNat < 103 := Nat.lt_succ_of_le (toNat_le_of_le (le_of_value? h))
  have hc := all ⟨c.toNat, hlt⟩
  rw [Char.ofNat_toNat, h] at hc
  exact hc rfl

theorem not_isDigit_plus : ¬ IsDigit '+' := by decide

theorem not_isDigit_underscore : ¬ IsDigit '_' := by decide

theorem IsDigit.ne_plus {c : Char} (h : IsDigit c) : c ≠ '+' :=
  fun hc => not_isDigit_plus (hc ▸ h)

theorem exists_values {cs : List Char} (h : ∀ c ∈ cs, IsDigit c) :
    ∃ ds : List Nat, cs.map value? = ds.map some ∧ ds.length = cs.length ∧ ∀ d ∈ ds, d < 16 := by
  induction cs with
  | nil => exact ⟨[], rfl, rfl, List.forall_mem_nil _⟩
  | cons c cs ih =>
    obtain ⟨hc, hcs⟩ := List.forall_mem_cons.1 h
    obtain ⟨d, hd, hvalue, -⟩ := exists_value? hc
    obtain ⟨ds, hvalues, hlength, hds⟩ := ih hcs
    refine ⟨d :: ds, ?_, congrArg Nat.succ hlength, List.forall_mem_cons.2 ⟨hd, hds⟩⟩
    rw [List.map_cons, List.map_cons, hvalue, hvalues]

theorem utf8Len_of_digits {cs : List Char} (h : ∀ c ∈ cs, IsDigit c) :
    String.utf8Len cs = cs.length := by
  obtain ⟨ds, hvalues, hlength, -⟩ := exists_values h
  rw [utf8Len_eq hvalues, hlength]

/-- The digits among the characters. -/
def digits (cs : List Char) : List Char :=
  cs.filter (IsDigit ·)

theorem digits_cons {c : Char} (h : IsDigit c) (cs : List Char) :
    digits (c :: cs) = c :: digits cs :=
  List.filter_cons_of_pos (decide_eq_true h)

theorem digits_cons_of_not {c : Char} (h : ¬ IsDigit c) (cs : List Char) :
    digits (c :: cs) = digits cs :=
  List.filter_cons_of_neg (by rwa [decide_eq_true_eq])

theorem digits_eq_self {cs : List Char} (h : ∀ c ∈ cs, IsDigit c) : digits cs = cs :=
  List.filter_eq_self.2 fun c hc => decide_eq_true (h c hc)

theorem isDigit_of_mem_digits {cs : List Char} {c : Char} (h : c ∈ digits cs) : IsDigit c :=
  of_decide_eq_true (List.mem_filter.1 h).2

end Digits

/-- Digits and underscores, a digit first, perhaps behind a plus sign. -/
inductive Numeral : List Char → Prop where
  | unsigned {c : Char} {cs : List Char} (hc : IsDigit c) (hcs : ∀ d ∈ cs, IsDigit d ∨ d = '_') :
    Numeral (c :: cs)
  | signed {c : Char} {cs : List Char} (hc : IsDigit c) (hcs : ∀ d ∈ cs, IsDigit d ∨ d = '_') :
    Numeral ('+' :: c :: cs)

theorem Numeral.digits_ne_nil {cs : List Char} (h : Numeral cs) : digits cs ≠ [] := by
  cases h with
  | unsigned hc _ => exact digits_cons hc _ ▸ List.cons_ne_nil _ _
  | signed hc _ =>
    rw [digits_cons_of_not not_isDigit_plus, digits_cons hc]
    exact List.cons_ne_nil _ _

theorem Numeral.isDigit_or {cs : List Char} (h : Numeral cs) :
    ∀ c ∈ cs, IsDigit c ∨ c = '+' ∨ c = '_' := by
  cases h with
  | unsigned hc hcs =>
    exact List.forall_mem_cons.2 ⟨.inl hc, fun d hd => (hcs d hd).imp_right .inr⟩
  | signed hc hcs =>
    exact List.forall_mem_cons.2 ⟨.inr (.inl rfl), List.forall_mem_cons.2
      ⟨.inl hc, fun d hd => (hcs d hd).imp_right .inr⟩⟩

theorem numeral_of_digits {cs : List Char} (hne : cs ≠ []) (h : ∀ c ∈ cs, IsDigit c) :
    Numeral cs := by
  cases cs with
  | nil => exact absurd rfl hne
  | cons c cs =>
    obtain ⟨hc, hcs⟩ := List.forall_mem_cons.1 h
    exact .unsigned hc fun d hd => .inl (hcs d hd)

/-- Digits alone are read as the number that they make up, the first one highest. -/
def ReadsDigits (read : List Char → Option Nat) : Prop :=
  ∀ (cs : List Char) (ds : List Nat), cs.map value? = ds.map some → ds ≠ [] →
    read cs = some (ds.foldl (fun v d => 16 * v + d) 0)

/-- What a reader of numbers does with each kind of character. -/
structure Reads (read : List Char → Option Nat) : Prop where
  digits : ReadsDigits read
  /-- A plus sign in front is passed over, unless another one follows. -/
  sign {c : Char} {cs : List Char} (h : c ≠ '+') : read ('+' :: c :: cs) = read (c :: cs)
  /-- Underscores are passed over behind a digit. -/
  underscore {c : Char} {cs ds : List Char} (h : IsDigit c) :
    read (c :: (cs ++ '_' :: ds)) = read (c :: (cs ++ ds))
  nil : read [] = none
  lone_sign : read ['+'] = none
  first {c : Char} {cs : List Char} (h : ¬ IsDigit c) (hplus : c ≠ '+') : read (c :: cs) = none
  later {c d : Char} {cs : List Char} (hd : d ∈ cs) (h : ¬ IsDigit d) (hunder : d ≠ '_') :
    read (c :: cs) = none

section Readers

variable {read : List Char → Option Nat} {cs : List Char} {v : Nat}

theorem Reads.isDigit_of_some (h : Reads read) {c : Char} (hc : c ≠ '+')
    (hread : read (c :: cs) = some v) : IsDigit c ∧ ∀ d ∈ cs, IsDigit d ∨ d = '_' := by
  constructor
  · by_contra hdigit
    cases (h.first hdigit hc).symm.trans hread
  · intro d hd
    by_contra hother
    obtain ⟨hdigit, hunder⟩ := not_or.1 hother
    cases (h.later hd hdigit hunder).symm.trans hread

theorem Reads.numeral_of_some (h : Reads read) (hread : read cs = some v) : Numeral cs := by
  cases cs with
  | nil => cases h.nil.symm.trans hread
  | cons c cs =>
    by_cases hplus : c = '+'
    · subst hplus
      cases cs with
      | nil => cases h.lone_sign.symm.trans hread
      | cons d ds =>
        have hd : d ≠ '+' := by
          rintro rfl
          cases (h.later List.mem_cons_self not_isDigit_plus (by decide)).symm.trans hread
        obtain ⟨hdigit, hds⟩ := h.isDigit_of_some hd ((h.sign hd).symm.trans hread)
        exact .signed hdigit hds
    · obtain ⟨hdigit, hcs⟩ := h.isDigit_of_some hplus hread
      exact .unsigned hdigit hcs

/-- Underscores do not change what is read. -/
theorem Reads.cons_digits (h : Reads read) {c : Char} (hc : IsDigit c)
    (hcs : ∀ d ∈ cs, IsDigit d ∨ d = '_') : read (c :: cs) = read (c :: Hex.digits cs) := by
  -- induction on what follows; what has been passed so far stays in front
  have key : ∀ passed, read (c :: (passed ++ cs)) = read (c :: (passed ++ Hex.digits cs)) := by
    induction cs with
    | nil => exact fun _ => rfl
    | cons d cs ih =>
      obtain ⟨hd, hrest⟩ := List.forall_mem_cons.1 hcs
      intro passed
      rcases hd with hd | rfl
      · rw [digits_cons hd, List.append_cons, List.append_cons passed d (Hex.digits cs)]
        exact ih hrest _
      · rw [digits_cons_of_not not_isDigit_underscore, h.underscore hc]
        exact ih hrest passed
  exact key []

theorem Reads.eq_digits (h : Reads read) (hcs : Numeral cs) : read cs = read (Hex.digits cs) := by
  cases hcs with
  | unsigned hc hcs => rw [digits_cons hc, h.cons_digits hc hcs]
  | signed hc hcs =>
    rw [digits_cons_of_not not_isDigit_plus, digits_cons hc, h.sign hc.ne_plus,
      h.cons_digits hc hcs]

theorem foldl_zeros (k : Nat) (ds : List Nat) :
    (List.replicate k 0 ++ ds).foldl (fun v d => 16 * v + d) 0 =
      ds.foldl (fun v d => 16 * v + d) 0 := by
  induction k with
  | zero => rfl
  | succ k ih => exact ih

theorem Reads.zeros (h : Reads read) (hcs : ∀ c ∈ cs, IsDigit c) (hne : cs ≠ []) (k : Nat) :
    read (List.replicate k '0' ++ cs) = read cs := by
  obtain ⟨ds, hvalues, -, -⟩ := exists_values hcs
  have hds : ds ≠ [] := by
    rintro rfl
    exact hne (List.map_eq_nil_iff.1 hvalues)
  have hzeros : (List.replicate k '0' ++ cs).map value? = (List.replicate k 0 ++ ds).map some := by
    rw [List.map_append, List.map_append, List.map_replicate, List.map_replicate, hvalues]
    rfl
  rw [h.digits _ _ hzeros (List.append_ne_nil_of_right_ne_nil _ hds), h.digits _ _ hvalues hds,
    foldl_zeros]

end Readers

section Instance

variable {cs : List Char}

theorem readDigits_cons {c : Char} {d : Nat} (h : value? c = some d) (v : Nat) (cs : List Char) :
    readDigits v (c :: cs) = readDigits (16 * v + d) cs := by
  have hc : c ≠ '_' := ne_of_value? h rfl
  rw [readDigits.eq_3 _ _ _ hc, h]

theorem readDigits_eq {ds : List Nat} (h : cs.map value? = ds.map some) (v : Nat) :
    readDigits v cs = some (ds.foldl (fun v d => 16 * v + d) v) := by
  induction cs generalizing ds v with
  | nil =>
    obtain rfl : ds = [] := List.map_eq_nil_iff.1 h.symm
    rfl
  | cons c cs ih =>
    cases ds with
    | nil => cases h
    | cons d ds =>
      obtain ⟨hc, hcs⟩ := List.cons.inj h
      rw [readDigits_cons hc, ih hcs]
      rfl

theorem readDigits_underscore (cs ds : List Char) (v : Nat) :
    readDigits v (cs ++ '_' :: ds) = readDigits v (cs ++ ds) := by
  induction cs generalizing v with
  | nil => rfl
  | cons c cs ih =>
    rw [List.cons_append, List.cons_append]
    by_cases hc : c = '_'
    · subst hc
      exact ih v
    · rw [readDigits.eq_3 _ _ _ hc, readDigits.eq_3 _ _ _ hc]
      cases value? c with
      | none => rfl
      | some d => exact ih _

/-- What is read has no other characters. -/
theorem isDigit_of_readDigits {v w : Nat} (h : readDigits v cs = some w) :
    ∀ d ∈ cs, IsDigit d ∨ d = '_' := by
  induction cs generalizing v with
  | nil => exact fun d hd => absurd hd List.not_mem_nil
  | cons c cs ih =>
    intro d hd
    by_cases hunder : c = '_'
    · subst hunder
      rcases List.mem_cons.1 hd with rfl | hd
      · exact .inr rfl
      · exact ih (v := v) h d hd
    · rw [readDigits.eq_3 _ _ _ hunder] at h
      cases hc : value? c with
      | none =>
        rw [hc] at h
        cases h
      | some k =>
        rw [hc] at h
        rcases List.mem_cons.1 hd with rfl | hd
        · exact .inl (isDigit_of_value? hc)
        · exact ih h d hd

theorem dropSign_cons {c : Char} (h : c ≠ '+') (cs : List Char) : dropSign (c :: cs) = c :: cs := by
  rw [dropSign]
  · rintro _ heq
    exact h (List.cons.inj heq).1
  · rintro _ heq
    exact h (List.cons.inj heq).1

theorem dropSign_sign {c : Char} (h : c ≠ '+') (cs : List Char) :
    dropSign ('+' :: c :: cs) = c :: cs := by
  rw [dropSign]
  rintro _ heq
  exact h (List.cons.inj heq).1

theorem mem_dropSign {c d : Char} (h : d ∈ cs) : d ∈ dropSign (c :: cs) := by
  unfold dropSign
  split
  · next heq => exact heq ▸ List.mem_cons_of_mem c h
  · next heq => exact (List.cons.inj heq).2 ▸ h
  · exact List.mem_cons_of_mem c h

theorem read?_of_ne {c : Char} (hplus : c ≠ '+') (hunder : c ≠ '_') :
    read? (c :: cs) = readDigits 0 (c :: cs) := by
  rw [read?, dropSign_cons hplus]
  split
  · next heq => cases heq
  · next heq => exact absurd (List.cons.inj heq).1 hunder
  · next heq => rw [heq]

theorem readDigits_of_read? {v : Nat} (h : read? cs = some v) :
    readDigits 0 (dropSign cs) = some v := by
  unfold read? at h
  split at h
  · cases h
  · cases h
  · next heq => rw [heq, h]

theorem readsDigits_read? : ReadsDigits read? := by
  intro cs ds h hne
  cases cs with
  | nil => exact absurd (List.map_eq_nil_iff.1 h.symm) hne
  | cons c cs =>
    cases ds with
    | nil => cases h
    | cons d ds =>
      have hc := (List.cons.inj h).1
      rw [read?_of_ne (ne_of_value? hc rfl) (ne_of_value? hc rfl), readDigits_eq h]

theorem reads_read? : Reads read? where
  digits := readsDigits_read?
  sign {c cs} h := by rw [read?, read?, dropSign_sign h, dropSign_cons h]
  underscore {c cs ds} h := by
    have hunder : c ≠ '_' := fun hc => not_isDigit_underscore (hc ▸ h)
    rw [read?_of_ne h.ne_plus hunder, read?_of_ne h.ne_plus hunder]
    exact readDigits_underscore (c :: cs) ds 0
  nil := rfl
  lone_sign := rfl
  first {c cs} h hplus := by
    by_cases hunder : c = '_'
    · subst hunder
      rfl
    · cases hread : read? (c :: cs) with
      | none => rfl
      | some v =>
        rw [read?_of_ne hplus hunder] at hread
        exact absurd (isDigit_of_readDigits hread c List.mem_cons_self) (not_or.2 ⟨h, hunder⟩)
  later {c d cs} hd h hunder := by
    cases hread : read? (c :: cs) with
    | none => rfl
    | some v =>
      have hall := isDigit_of_readDigits (readDigits_of_read? hread)
      exact absurd (hall d (mem_dropSign hd)) (not_or.2 ⟨h, hunder⟩)

end Instance

end Hex

end Keystream
