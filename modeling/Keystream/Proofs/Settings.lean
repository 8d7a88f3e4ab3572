import Keystream.BitVector.Lemmas
import Keystream.Proofs.Streams
import Keystream.ShiftRegister.Setters

/-!
# Registers under setters and calls

What a setter writes depends on the old vector of its part alone, and so does its fault. A setter
that fails leaves the register as it was, and one that succeeds changes only its part. Hence no run
of setters and calls, whichever of them fail, changes the length of a register or sets a bit above
it.
-/

namespace Keystream.ShiftRegister

/-- The vector that replaces an old one, or the fault of the setter. -/
def Setting.over : Setting → BitVector → Except Error BitVector
  | vector x, old =>
    if x.length = old.length then .ok x else .error (.lengthMismatch old.length x.length)
  | word w, old =>
    if old.length ≤ 64 then .ok (.ofWord old.length w) else .error (.tooWideForWord old.length)
  | bit i value, old => old.set i value

section Steps

variable (r : ShiftRegister) (p : Part)

theorem run_write (x : BitVector) :
    (Update.write p x).run r =
      if h : x.length = r.length then .ok () (r.replace p x h)
      else .error (.lengthMismatch r.length x.length) r := by
  by_cases h : x.length = r.length
  · rw [dif_pos h, Update.write]
    simp only [EStateM.run_bind, EStateM.run_get, dif_pos h]
    rfl
  · rw [dif_neg h, Update.write]
    simp only [EStateM.run_bind, EStateM.run_get, dif_neg h]
    rfl

theorem run_writeWord (w : UInt64) :
    (Update.writeWord p w).run r =
      if r.length ≤ 64 then (Update.write p (.ofWord r.length w)).run r
      else .error (.tooWideForWord r.length) r := by
  by_cases h : r.length ≤ 64
  · rw [if_pos h, Update.writeWord]
    simp only [EStateM.run_bind, EStateM.run_get, if_neg (Nat.not_lt.2 h)]
  · rw [if_neg h, Update.writeWord]
    simp only [EStateM.run_bind, EStateM.run_get, if_pos (Nat.lt_of_not_le h)]
    rfl

theorem run_writeBit_of_ok {i value : Nat} {x : BitVector} (h : (r.part p).set i value = .ok x) :
    (Update.writeBit p i value).run r =
      .ok () (r.replace p x ((BitVector.length_set h).trans (r.length_part p))) := by
  rw [Update.writeBit]
  simp only [EStateM.run_bind, EStateM.run_get]
  split
  · next y hy =>
    cases Except.ok.inj (hy.symm.trans h)
    rfl
  · next e he => exact nomatch he.symm.trans h

theorem run_writeBit_of_error {i value : Nat} {e : Error} (h : (r.part p).set i value = .error e) :
    (Update.writeBit p i value).run r = .error e r := by
  rw [Update.writeBit]
  simp only [EStateM.run_bind, EStateM.run_get]
  split
  · next x hx => exact nomatch hx.symm.trans h
  · next e he =>
    cases Except.error.inj (he.symm.trans h)
    rfl

theorem apply_vector (x : BitVector) :
    (Setting.vector x).apply p r =
      if h : x.length = r.length then .ok (r.replace p x h)
      else .error (.lengthMismatch r.length x.length) := by
  cases p <;> rfl

theorem apply_word (w : UInt64) :
    (Setting.word w).apply p r =
      if r.length ≤ 64 then (Setting.vector (.ofWord r.length w)).apply p r
      else .error (.tooWideForWord r.length) := by
  cases p <;> rfl

theorem apply_bit (i value : Nat) :
    (Setting.bit i value).apply p r =
      (r.part p).set i value >>= fun x => (Setting.vector x).apply p r := by
  cases p <;> rfl

/-- A setter either has a vector for its part, which it then replaces and nothing else, or a fault,
with which it leaves the register as it was. -/
theorem assign_cases (s : Setting) :
    (∃ x, ∃ h : x.length = r.length, s.over (r.part p) = .ok x ∧
      s.apply p r = .ok (r.replace p x h) ∧ (s.assign p).run r = .ok () (r.replace p x h)) ∨
    ∃ e, s.over (r.part p) = .error e ∧ s.apply p r = .error e ∧
      (s.assign p).run r = .error e r := by
  cases s with
  | vector x =>
    have hover : (Setting.vector x).over (r.part p) =
        if x.length = r.length then .ok x else .error (.lengthMismatch r.length x.length) := by
      rw [Setting.over, length_part]
    by_cases h : x.length = r.length
    · rw [if_pos h] at hover
      exact .inl ⟨x, h, hover, (r.apply_vector p x).trans (dif_pos h),
        (r.run_write p x).trans (dif_pos h)⟩
    · rw [if_neg h] at hover
      exact .inr ⟨_, hover, (r.apply_vector p x).trans (dif_neg h),
        (r.run_write p x).trans (dif_neg h)⟩
  | word w =>
    have hover : (Setting.word w).over (r.part p) =
        if r.length ≤ 64 then .ok (.ofWord r.length w) else .error (.tooWideForWord r.length) := by
      rw [Setting.over, length_part]
    by_cases h : r.length ≤ 64
    · rw [if_pos h] at hover
      refine .inl ⟨_, BitVector.length_ofWord r.length w, hover, ?_, ?_⟩
      · rw [apply_word, if_pos h, apply_vector, dif_pos (BitVector.length_ofWord r.length w)]
      · rw [Setting.assign, run_writeWord, if_pos h, run_write,
          dif_pos (BitVector.length_ofWord r.length w)]
    · rw [if_neg h] at hover
      exact .inr ⟨_, hover, (r.apply_word p w).trans (if_neg h),
        (r.run_writeWord p w).trans (if_neg h)⟩
  | bit i value =>
    cases hset : (r.part p).set i value with
    | ok x =>
      have hx : x.length = r.length := (BitVector.length_set hset).trans (r.length_part p)
      refine .inl ⟨x, hx, hset, ?_, r.run_writeBit_of_ok p hset⟩
      rw [apply_bit, hset]
      exact (r.apply_vector p x).trans (dif_pos hx)
    | error e =>
      refine .inr ⟨e, hset, ?_, r.run_writeBit_of_error p hset⟩
      rw [apply_bit, hset]
      rfl

end Steps

/-- What is asked of a register: to set one of its parts, or one of the calls on its outputs. -/
inductive Request where
  | set (s : Setting) (p : Part)
  | call (c : Call)

/-- The answer, and the register after it, however the setter ends. -/
def Request.perform : Request → ShiftRegister → Except Error (List Bool) × ShiftRegister
  | set s p, r =>
    match (s.assign p).run r with
    | .ok _ r => (.ok [], r)
    | .error e r => (.error e, r)
  | call c, r =>
    let (bits, r) := c.perform r
    (.ok bits, r)

theorem length_perform_call (c : Call) (r : ShiftRegister) : (c.perform r).2.length = r.length := by
  have h := r.perform_advanceBy c 0
  rw [advanceBy_zero] at h
  rw [h, length_advanceBy]

theorem length_perform (q : Request) (r : ShiftRegister) : (q.perform r).2.length = r.length := by
  cases q with
  | set s p =>
    rw [Request.perform]
    obtain ⟨x, h, -, -, hrun⟩ | ⟨e, -, -, hrun⟩ := r.assign_cases p s
    · rw [hrun]
      exact r.length_replace p h
    · rw [hrun]
  | call c => exact length_perform_call c r

theorem length_performAll (requests : List Request) (r : ShiftRegister) :
    (performAll Request.perform requests r).2.length = r.length :=
  performAll_keeps (P := fun s => s.length = r.length)
    (fun q s hs => (length_perform q s).trans hs) requests rfl

theorem ofVectors_eq (taps fill : BitVector) :
    ofVectors taps fill =
      if h : 0 < taps.length then
        if hl : taps.length = fill.length then .ok ⟨fill, taps, hl, hl ▸ h⟩
        else .error (.lengthMismatch taps.length fill.length)
      else .error .emptyRegister := by
  by_cases h : 0 < taps.length
  · have hblank : blank taps.length = .ok ⟨.zeros taps.length, .zeros taps.length, rfl, h⟩ :=
      dif_pos h
    have htaps : setTaps ⟨.zeros taps.length, .zeros taps.length, rfl, h⟩ taps =
        .ok ⟨.zeros taps.length, taps, rfl, h⟩ :=
      dif_pos rfl
    rw [dif_pos h, ofVectors, hblank]
    change (setTaps _ taps >>= fun r => r.setFill fill) = _
    rw [htaps]
    by_cases hl : taps.length = fill.length
    · rw [dif_pos hl]
      exact dif_pos hl.symm
    · rw [dif_neg hl]
      exact dif_neg (Ne.symm hl)
  · have hblank : blank taps.length = .error .emptyRegister := dif_neg h
    rw [dif_neg h, ofVectors, hblank]
    rfl

theorem ofVectors_eq_ok_iff (taps fill : BitVector) (r : ShiftRegister) :
    ofVectors taps fill = .ok r ↔ 0 < taps.length ∧ r.taps = taps ∧ r.fill = fill := by
  rw [ofVectors_eq]
  constructor
  · intro h
    split at h
    · next hpos =>
      split at h
      · cases h
        exact ⟨hpos, rfl, rfl⟩
      · exact nomatch h
    · exact nomatch h
  · rintro ⟨hpos, rfl, rfl⟩
    rw [dif_pos hpos, dif_pos r.length_taps]

theorem exists_ofVectors (taps fill : BitVector) (hpos : 0 < taps.length)
    (hl : fill.length = taps.length) :
    ∃ r, ofVectors taps fill = .ok r ∧ r.taps = taps ∧ r.fill = fill :=
  ⟨⟨fill, taps, hl.symm, hl ▸ hpos⟩, (ofVectors_eq_ok_iff taps fill _).2 ⟨hpos, rfl, rfl⟩, rfl, rfl⟩

/-- Registers when they are created, with the length that they are given. -/
inductive Created : Nat → ShiftRegister → Prop where
  | blank {n : Nat} {r : ShiftRegister} (h : blank n = .ok r) : Created n r
  | ofVectors {taps fill : BitVector} {r : ShiftRegister} (h : ofVectors taps fill = .ok r) :
      Created taps.length r

theorem Created.length_eq {n : Nat} {r : ShiftRegister} (h : Created n r) : r.length = n := by
  cases h with
  | blank h =>
    rw [ShiftRegister.blank] at h
    split at h
    · cases h
      rfl
    · exact nomatch h
  | ofVectors h =>
    obtain ⟨-, rfl, -⟩ := (ofVectors_eq_ok_iff _ _ r).1 h
    exact r.length_taps.symm

theorem run_word_eq_vector (r : ShiftRegister) (p : Part) (w : UInt64) (h : r.length ≤ 64) :
    ∃ r', ((Setting.word w).assign p).run r = .ok () r' ∧
      ((Setting.vector (.ofWord r.length w)).assign p).run r = .ok () r' := by
  have hvector := r.run_write p (.ofWord r.length w)
  rw [dif_pos (BitVector.length_ofWord r.length w)] at hvector
  refine ⟨_, ?_, hvector⟩
  rw [Setting.assign, run_writeWord, if_pos h, hvector]

theorem run_bit (r : ShiftRegister) (p : Part) (i value : Nat) :
    ((Setting.bit i value).assign p).run r =
      if 1 < value then .error (.invalidBit value) r
      else if h : i < (r.part p).length then
        .ok () (r.replace p ((r.part p).put i (value == 1) h) (r.length_part p))
      else .error (.indexOutOfRange i r.length) r := by
  have hset := (r.part p).set_eq i value
  by_cases hv : 1 < value
  · rw [if_pos hv] at hset ⊢
    exact r.run_writeBit_of_error p hset
  · rw [if_neg hv] at hset ⊢
    by_cases hi : i < (r.part p).length
    · rw [dif_pos hi] at hset ⊢
      exact r.run_writeBit_of_ok p hset
    · rw [dif_neg hi, length_part] at hset
      rw [dif_neg hi]
      exact r.run_writeBit_of_error p hset

theorem run_bit_eq_ok_iff (r : ShiftRegister) (p : Part) (i value : Nat) :
    (∃ r', ((Setting.bit i value).assign p).run r = .ok () r') ↔ value ≤ 1 ∧ i < r.length := by
  rw [run_bit]
  constructor
  · rintro ⟨r', h⟩
    split at h
    · cases h
    · next hv =>
      split at h
      · next hi => exact ⟨Nat.le_of_not_lt hv, Nat.lt_of_lt_of_eq hi (r.length_part p)⟩
      · cases h
  · rintro ⟨hv, hi⟩
    rw [if_neg (Nat.not_lt.2 hv), dif_pos (Nat.lt_of_lt_of_eq hi (r.length_part p).symm)]
    exact ⟨_, rfl⟩

/-- A register has as many bits in both its parts as it was created with, and none above them, after
any run of setters and calls, whichever of them fail. For a setter in place that fails leaves the
register as it was, and one that succeeds changes its part alone, to what it was given. -/
theorem setters_atomic :
    (∀ taps fill : BitVector,
      ((∃ r, ofVectors taps fill = .ok r) ↔ taps.length = fill.length ∧ 0 < taps.length) ∧
      ∀ r, ofVectors taps fill = .ok r → r.taps = taps ∧ r.fill = fill) ∧
    (∀ n start, Created n start → ∀ requests : List Request,
      let r := (performAll Request.perform requests start).2
      0 < n ∧ r.length = n ∧ ∀ p, (r.part p).length = n ∧ (r.part p).toNat < 2 ^ n) ∧
    ∀ (r : ShiftRegister) (p : Part),
      (∀ s : Setting,
        (∃ r', s.over (r.part p) = .ok (r'.part p) ∧ r'.part p.other = r.part p.other ∧
          s.apply p r = .ok r' ∧ (s.assign p).run r = .ok () r') ∨
        ∃ e, s.over (r.part p) = .error e ∧ s.apply p r = .error e ∧
          (s.assign p).run r = .error e r) ∧
      (∀ w : UInt64,
        (r.length ≤ 64 → ∃ r', ((Setting.word w).assign p).run r = .ok () r' ∧
          ((Setting.vector (.ofWord r.length w)).assign p).run r = .ok () r') ∧
        (64 < r.length →
          ((Setting.word w).assign p).run r = .error (.tooWideForWord r.length) r)) ∧
      ∀ i value : Nat,
        ((∃ r', ((Setting.bit i value).assign p).run r = .ok () r') ↔ value ≤ 1 ∧ i < r.length) ∧
        (1 < value → ((Setting.bit i value).assign p).run r = .error (.invalidBit value) r) ∧
        (value ≤ 1 → r.length ≤ i →
          ((Setting.bit i value).assign p).run r = .error (.indexOutOfRange i r.length) r) := by
  refine ⟨?_, ?_, fun r p => ⟨?_, ?_, ?_⟩⟩
  · intro taps fill
    refine ⟨⟨?_, ?_⟩, fun r h => ((ofVectors_eq_ok_iff taps fill r).1 h).2⟩
    · rintro ⟨r, h⟩
      obtain ⟨hpos, rfl, rfl⟩ := (ofVectors_eq_ok_iff taps fill r).1 h
      exact ⟨r.length_taps, hpos⟩
    · rintro ⟨hl, hpos⟩
      exact ⟨⟨fill, taps, hl, hl ▸ hpos⟩, (ofVectors_eq_ok_iff taps fill _).2 ⟨hpos, rfl, rfl⟩⟩
  · intro n start hstart requests r
    have hl : r.length = n := (length_performAll requests start).trans hstart.length_eq
    refine ⟨hl ▸ r.length_pos, hl, fun p => ?_⟩
    have hp : (r.part p).length = n := (r.length_part p).trans hl
    exact ⟨hp, hp ▸ (r.part p).toNat_lt⟩
  · intro s
    obtain ⟨x, h, hover, happly, hrun⟩ | hfault := r.assign_cases p s
    · refine .inl ⟨r.replace p x h, ?_, r.part_other_replace p h, happly, hrun⟩
      rw [part_replace, hover]
    · exact .inr hfault
  · intro w
    refine ⟨r.run_word_eq_vector p w, fun h => ?_⟩
    rw [Setting.assign, run_writeWord, if_neg (Nat.not_le.2 h)]
  · intro i value
    refine ⟨r.run_bit_eq_ok_iff p i value, ?_, ?_⟩
    · intro hv
      rw [run_bit, if_pos hv]
    · intro hv hi
      rw [run_bit, if_neg (Nat.not_lt.2 hv), dif_neg]
      rw [length_part]
      exact Nat.not_lt.2 hi

/-- A run of requests on a register of four bits, some of which fail, and a register that is too
long for a word. -/
theorem setters_atomic_example :
    let requests : List Request := [.set (.bit 9 2) .fill, .call .shift, .set (.word 0b11001) .taps,
      .set (.vector (.zeros 5)) .fill, .call (.take 3)]
    ∃ start long, Created 4 start ∧ Created 65 long ∧
      ((performAll Request.perform requests start).2.length = 4 ∧
        ((performAll Request.perform requests start).2.part .fill).toNat < 16) ∧
      (start.length ≤ 64 ∧ ∃ r', ((Setting.word 0b11001).assign .taps).run start = .ok () r' ∧
        ((Setting.vector (.ofWord start.length 0b11001)).assign .taps).run start = .ok () r') ∧
      (64 < long.length ∧ ((Setting.word 1).assign .fill).run long =
        .error (.tooWideForWord long.length) long) ∧
      (1 < 2 ∧ ((Setting.bit 9 2).assign .fill).run start = .error (.invalidBit 2) start) ∧
      1 ≤ 1 ∧ start.length ≤ 9 ∧ ((Setting.bit 9 1).assign .fill).run start =
        .error (.indexOutOfRange 9 start.length) start := by
  intro requests
  obtain ⟨start, hstart, hlength⟩ : ∃ r, ofVectors (.ofNat 4 0b0011) (.ofNat 4 0b0001) = .ok r ∧
      r.length = 4 :=
    ⟨_, rfl, rfl⟩
  obtain ⟨long, hlong, hwide⟩ : ∃ r, blank 65 = .ok r ∧ r.length = 65 := ⟨_, rfl, rfl⟩
  obtain ⟨-, hruns, hsetters⟩ := setters_atomic
  obtain ⟨-, hkept, hparts⟩ := hruns 4 start (.ofVectors hstart) requests
  have hshort : start.length ≤ 64 := by omega
  have hover : 64 < long.length := by omega
  have hout : start.length ≤ 9 := by omega
  obtain ⟨-, -, hbits⟩ := hsetters start .fill
  obtain ⟨-, hbit, -⟩ := hbits 9 2
  obtain ⟨-, -, hindex⟩ := hbits 9 1
  obtain ⟨-, hwords, -⟩ := hsetters start .taps
  obtain ⟨-, hwordsLong, -⟩ := hsetters long .fill
  exact ⟨start, long, .ofVectors hstart, .blank hlong, ⟨hkept, (hparts .fill).2⟩,
    ⟨hshort, (hwords 0b11001).1 hshort⟩, ⟨hover, (hwordsLong 1).2 hover⟩,
    ⟨by decide, hbit (by decide)⟩, Nat.le_refl 1, hout, hindex (Nat.le_refl 1) hout⟩

end Keystream.ShiftRegister
