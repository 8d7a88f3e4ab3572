import Mathlib.Data.Nat.Size
import Keystream.NormalForm.Text
import Keystream.Proofs.Checked.Transform
import Keystream.Proofs.Operators

/-!
# Normal forms without proofs

`Terms` are what a normal form consists of, with nothing known about them: a number of variables and
a list of monomials. They are built as normal forms are, by the same loops, but no monomial is cut
down to the variables there are, and an operator on different numbers of variables is a fault. Each
construction gives the terms of a normal form all the same, so nothing has ever to be cut.
-/

namespace Keystream

open Checked

structure Terms where
  arity : Nat
  monomials : List Monomial
  deriving DecidableEq

def NormalForm.terms (f : NormalForm) : Terms :=
  ⟨f.arity, f.polynomial.monomials⟩

/-- The normal form with these terms, which must have the form of one. -/
def NormalForm.assemble (t : Terms) : Checked NormalForm :=
  if h : (0 < t.arity ∧ t.arity ≤ 63) ∧ t.monomials.Pairwise (· < ·) ∧
      (t.monomials.all fun m => Bits.fits t.arity m.toNat) = true then
    .ok ⟨t.arity, ⟨t.monomials, h.2.1⟩, h.1,
      fun m hm => Bits.fits_iff.1 (List.all_eq_true.1 h.2.2 m hm)⟩
  else fault .malformed

theorem NormalForm.assemble_terms (f : NormalForm) : assemble f.terms = .ok f :=
  dif_pos ⟨f.arity_range, f.polynomial.increasing,
    List.all_eq_true.2 fun m hm => Bits.fits_iff.2 (f.within m hm)⟩

namespace Word

theorem and_not_lowMask_eq_zero_iff (n : Nat) (w : UInt64) :
    w &&& ~~~lowMask n = 0 ↔ w.toNat < 2 ^ n := by
  have hbit : ∀ i, i < 64 → bit (w &&& ~~~lowMask n) i = (bit w i && !decide (i < n)) := by
    intro i hi
    rw [bit_and, bit_not _ hi, bit_lowMask n hi]
  constructor
  · intro h
    apply Nat.lt_pow_two_of_testBit
    intro i hni
    by_cases hi : i < 64
    · have hout := hbit i hi
      rw [h, bit_zero, decide_eq_false (Nat.not_lt.2 hni), Bool.not_false, Bool.and_true] at hout
      exact hout.symm
    · exact bit_of_le (Nat.le_of_not_lt hi)
  · intro h
    apply ext_bit
    intro i hi
    rw [hbit i hi, bit_zero]
    cases hw : bit w i with
    | false => rfl
    | true => rw [decide_eq_true (lt_of_bit h hw)]; rfl

theorem and_single_eq_zero_iff (w : UInt64) {i : Nat} (hi : i < 64) :
    w &&& single i = 0 ↔ bit w i = false := by
  constructor
  · intro h
    have hbit := bit_and w (single i) i
    rwa [h, bit_zero, bit_single hi, decide_eq_true rfl, Bool.and_true, eq_comm] at hbit
  · intro h
    apply ext_bit
    intro j _
    rw [bit_and, bit_single hi, bit_zero]
    by_cases hij : i = j
    · rw [← hij, h, Bool.false_and]
    · rw [decide_eq_false hij, Bool.and_false]

end Word

theorem Polynomial.monomials_eq_nil_iff (p : Polynomial) : p.monomials = [] ↔ p = 0 := by
  constructor
  · intro h
    apply ext_mem
    intro m
    rw [h]
    rfl
  · intro h
    rw [h]
    rfl

namespace Terms

def checkArity (arity : Nat) : Checked Unit :=
  if arity = 0 then fail .noVariables
  else if 63 < arity then fail (.tooManyVariables 63)
  else .ok ()

/-- What goes on with a number of variables in range. -/
theorem checkArity_bind_eq {arity : Nat} {t : Checked Terms}
    {p : arity ≤ 63 → Except Error {p : Polynomial // p.Within arity}}
    (h : ∀ hle : arity ≤ 63, 0 < arity →
      t = faultless ((p hle).map fun p => ⟨arity, p.1.monomials⟩)) :
    (checkArity arity >>= fun _ => t) =
      faultless ((NormalForm.build arity p).map NormalForm.terms) := by
  unfold checkArity NormalForm.build
  split
  · rfl
  · next h₀ =>
    split
    · rfl
    · next h₆₃ =>
      rw [ok_bind, h (Nat.le_of_not_lt h₆₃) (Nat.pos_of_ne_zero h₀)]
      cases p (Nat.le_of_not_lt h₆₃) <;> rfl

/-- Whether there is a bit above the mask is whether the word is too large. -/
theorem overlaps_eq (n : Nat) (w : UInt64) :
    (w &&& ~~~Word.lowMask n != 0) = !Bits.fits n w.toNat := by
  rw [Bool.eq_iff_iff, bne_iff_ne, Bool.not_eq_true', ← Bool.not_eq_true, Bits.fits_iff]
  exact not_congr (Word.and_not_lowMask_eq_zero_iff n w)

/-- Toggling monomials one after another adds them up. -/
theorem foldl_toggleIn (ms : List Monomial) :
    ms.foldl (fun l m => Monomial.toggleIn m l) [] = (Polynomial.ofMonomials ms).monomials := by
  have hsum : ms.foldl (fun s m => s.toggle m) 0 = Polynomial.ofMonomials ms := by
    apply Polynomial.ext_paritySum
    intro φ
    rw [Polynomial.paritySum_foldl fun s m => Polynomial.paritySum_toggle m s φ,
      Polynomial.paritySum_ofMonomials]
    exact Bool.xor_false _
  rw [← hsum]
  change ms.foldl (fun l m => Monomial.toggleIn m l) (Polynomial.monomials 0) = _
  exact List.foldl_hom Polynomial.monomials fun _ _ => rfl

def zero (arity : Nat) : Checked Terms := do
  checkArity arity
  return ⟨arity, []⟩

theorem zero_eq (arity : Nat) :
    zero arity = faultless ((NormalForm.zero arity).map NormalForm.terms) :=
  checkArity_bind_eq fun _ _ => rfl

/-- Adds one monomial after another; the first one with a variable too many is an error. -/
def ofMonomials (arity : Nat) (ms : List Monomial) : Checked Terms := do
  let t ← zero arity
  let mask ← lowMask arity
  let sum ← ms.foldlM (fun sum m =>
    if m &&& ~~~mask != 0 then fail (.monomialOutOfRange m arity) else .ok (Monomial.toggleIn m sum))
    t.monomials
  return ⟨arity, sum⟩

theorem ofMonomials_eq_find (arity : Nat) (ms : List Monomial) :
    ofMonomials arity ms = checkArity arity >>= fun _ =>
      match ms.find? fun m => !Bits.fits arity m.toNat with
      | some m => fail (.monomialOutOfRange m arity)
      | none => .ok ⟨arity, (Polynomial.ofMonomials ms).monomials⟩ := by
  unfold ofMonomials zero
  simp only [bind_assoc, pure_eq, ok_bind, lowMask_eq, overlaps_eq, foldlM_guard,
    ← foldl_toggleIn]
  cases ms.find? fun m => !Bits.fits arity m.toNat <;> rfl

theorem ofMonomials_eq (arity : Nat) (ms : List Monomial) :
    ofMonomials arity ms = faultless ((NormalForm.ofMonomials arity ms).map NormalForm.terms) := by
  rw [ofMonomials_eq_find]
  apply checkArity_bind_eq
  intro _ _
  split
  · next m hm =>
    split
    · next r hr =>
      cases hm.symm.trans hr
      rfl
    · next hr => cases hm.symm.trans hr
  · next hm =>
    split
    · next r hr => cases hm.symm.trans hr
    · rfl

/-- The constant one, as the sum of the empty monomial. -/
def one (arity : Nat) : Checked Terms :=
  ofMonomials arity [0]

theorem one_eq (arity : Nat) :
    one arity = faultless ((NormalForm.one arity).map NormalForm.terms) := by
  have hfits : Bits.fits arity (UInt64.toNat 0) = true := rfl
  rw [one, ofMonomials_eq_find, List.find?_singleton, hfits]
  exact checkArity_bind_eq fun _ _ => rfl

theorem checkArity_of_range {arity : Nat} (hpos : 0 < arity) (hle : arity ≤ 63) :
    checkArity arity = .ok () := by
  rw [checkArity, if_neg (Nat.ne_of_gt hpos), if_neg (Nat.not_lt.2 hle)]

/-- Variable `i`, counted from 0, as a function of `arity` variables. -/
def ofVariable (arity i : Nat) : Checked Terms := do
  checkArity arity
  if arity ≤ i then fail (.indexOutOfRange i arity)
  else ofMonomials arity [← single i]

theorem ofVariable_eq (arity i : Nat) :
    ofVariable arity i = faultless ((NormalForm.ofVariable arity i).map NormalForm.terms) := by
  apply checkArity_bind_eq
  intro hle hpos
  rcases Nat.lt_or_ge i arity with hi | hi
  · have hword : i < 64 := by omega
    have hfits : Bits.fits arity (Word.single i).toNat = true := by
      rw [Bits.fits_iff, Word.toNat_single hword]
      exact Nat.pow_lt_pow_right (by decide) hi
    rw [if_neg (Nat.not_le.2 hi), dif_pos hi, single_of_lt hword, ok_bind, ofMonomials_eq_find,
      checkArity_of_range hpos hle, ok_bind, List.find?_singleton, hfits]
    rfl
  · rw [if_pos hi, dif_neg (Nat.not_lt.2 hi)]
    rfl

/-- The monomials at the ones of a number, all of them. -/
def ofPacked (arity packed : Nat) : Terms :=
  ⟨arity, ((List.range packed.size).filter packed.testBit).map UInt64.ofNat⟩

theorem filter_range_size {v m : Nat} (h : v < 2 ^ m) :
    (List.range m).filter v.testBit = (List.range v.size).filter v.testBit := by
  obtain ⟨d, rfl⟩ := Nat.exists_eq_add_of_le (Nat.size_le.2 h)
  have hnone : ((List.range d).map (v.size + ·)).filter v.testBit = [] := by
    rw [List.filter_map, List.map_eq_nil_iff, List.filter_eq_nil_iff]
    intro i _
    rw [Function.comp_apply, Bits.testBit_of_le v.lt_size_self (Nat.le_add_right _ i)]
    exact Bool.false_ne_true
  rw [List.range_add, List.filter_append, hnone, List.append_nil]

theorem ofPacked_eq {n v : Nat} (hn : n ≤ 64) (h : v < 2 ^ (2 ^ n : Nat)) :
    (ofPacked n v).monomials = (Polynomial.ofCoefficients n hn v).monomials :=
  congrArg (List.map UInt64.ofNat) (filter_range_size h).symm

/-- The normal form of a table. A small table is cut to its outputs after a transform of words, a
large one is not cut at all. -/
def ofTable (transform : Nat → UInt64 → UInt64) : TruthTable → Checked Terms
  | .small t => do
    let mask ← lowMask (← size t.arity)
    return ofPacked t.arity (transform t.arity t.outputs &&& mask).toNat
  | .large t => do
    return ofPacked t.arity (← Moebius.checkedTransform t.arity t.outputs)

theorem ofTable_eq (transform : Nat → UInt64 → UInt64) (t : TruthTable) :
    ofTable transform t = .ok (t.normalFormBy transform).terms := by
  have hlt : t.arity < 64 := Nat.lt_of_le_of_lt t.arity_le (by decide)
  have hterms : ofPacked t.arity (t.coefficients transform) = (t.normalFormBy transform).terms :=
    congrArg (Terms.mk t.arity)
      (ofPacked_eq (Nat.le_of_lt hlt) (t.coefficients_lt transform))
  rw [← hterms]
  cases t with
  | small t =>
    have hlt : t.arity < 64 := hlt
    simp only [ofTable, size_of_lt hlt, lowMask_eq, ok_bind, pure_eq]
    rfl
  | large t =>
    have hlt : t.arity < 64 := hlt
    simp only [ofTable, Moebius.checkedTransform_eq hlt, ok_bind, pure_eq]
    rfl

/-- The variables among the first `n` that occur, each tested by a mask of its own. -/
def checkedSupport (n : Nat) (m : Monomial) : Checked (List Nat) :=
  (List.range n).filterM fun i => return m &&& (← single i) != 0

theorem checkedSupport_eq {n : Nat} (hn : n ≤ 64) {m : Monomial} (hm : m.toNat < 2 ^ n) :
    checkedSupport n m = .ok m.support := by
  have hbits : ∀ i ∈ List.range n,
      (do return m &&& (← single i) != 0 : Checked Bool) = .ok (m.toNat.testBit i) := by
    intro i hi
    have hi : i < 64 := Nat.lt_of_lt_of_le (List.mem_range.1 hi) hn
    rw [single_of_lt hi, ok_bind, pure_eq]
    congr 1
    rw [Bool.eq_iff_iff, bne_iff_ne, Ne, Word.and_single_eq_zero_iff m hi, Bool.not_eq_false]
    rfl
  rw [checkedSupport, filterM_eq hbits, filter_range_size hm]
  exact congrArg Except.ok (filter_range_size m.toNat_lt).symm

def checkedMonomialText (numbering : Numbering) (n : Nat) (m : Monomial) : Checked String :=
  if m = 0 then .ok "1"
  else do
    return " ".intercalate ((← checkedSupport n m).map fun i => s!"x{numbering.first + i}")

theorem checkedMonomialText_eq (numbering : Numbering) {n : Nat} (hn : n ≤ 64) {m : Monomial}
    (hm : m.toNat < 2 ^ n) : checkedMonomialText numbering n m = .ok (m.text numbering) := by
  rw [checkedMonomialText, Monomial.text, checkedSupport_eq hn hm]
  split <;> rfl

def checkedText (numbering : Numbering) (t : Terms) : Checked String :=
  if t.monomials = [] then .ok "0"
  else do
    return " + ".intercalate (← (t.monomials.mergeSort fun m r =>
      Monomial.degree r ≤ Monomial.degree m).mapM (checkedMonomialText numbering t.arity))

theorem checkedText_eq (numbering : Numbering) (f : NormalForm) :
    f.terms.checkedText numbering = .ok (f.text numbering) := by
  have hempty := f.polynomial.monomials_eq_nil_iff
  have htext : ∀ m ∈ f.writtenMonomials,
      checkedMonomialText numbering f.terms.arity m = .ok (m.text numbering) := by
    intro m hm
    have hm := f.within m ((List.mergeSort_perm _ _).mem_iff.1 hm)
    exact checkedMonomialText_eq numbering (Nat.le_succ_of_le f.arity_le) hm
  rw [checkedText, NormalForm.text]
  by_cases h : f.polynomial = 0
  · exact (if_pos (hempty.2 h)).trans (congrArg Except.ok (if_pos h).symm)
  · rw [if_neg h]
    refine (if_neg (hempty.not.2 h)).trans ?_
    change (f.writtenMonomials.mapM _ >>= fun _ => _) = _
    rw [mapM_eq htext]
    rfl

end Terms

namespace NormalForm.Operator

/-- Why the operator cannot be applied. -/
def mismatch : Operator → Error
  | xor | add => .sumArityMismatch
  | and | mul => .productArityMismatch

/-- What becomes of the monomials of the first operand. -/
def combine : Operator → List Monomial → List Monomial → List Monomial
  | xor | add => fun l r => r.foldl (fun l m => Monomial.toggleIn m l) l
  | and | mul => fun l r =>
    l.foldl (fun s a => r.foldl (fun s b => Monomial.toggleIn (a ||| b) s) s) []

/-- The operator in place: whether it could be applied, and the first operand after it. -/
def checkedAssign (op : Operator) (t u : Terms) : Checked Unit × Terms :=
  if t.arity ≠ u.arity then (fault (.arityMismatch op.mismatch), t)
  else (.ok (), ⟨t.arity, op.combine t.monomials u.monomials⟩)

/-- The operator, which works in place on a copy. -/
def checkedApply (op : Operator) (t u : Terms) : Checked Terms :=
  let (done, result) := op.checkedAssign t u
  done >>= fun _ => .ok result

theorem combine_sum (p q : Polynomial) :
    xor.combine p.monomials q.monomials = (p.addInPlace q).monomials :=
  List.foldl_hom Polynomial.monomials fun _ _ => rfl

theorem combine_product (p q : Polynomial) :
    and.combine p.monomials q.monomials = (p.mulInPlace q).monomials := by
  change p.monomials.foldl (fun s a =>
    q.monomials.foldl (fun s b => Monomial.toggleIn (a ||| b) s) s) (Polynomial.monomials 0) = _
  apply List.foldl_hom Polynomial.monomials
  intro s a
  exact List.foldl_hom Polynomial.monomials fun _ _ => rfl

variable (op : Operator) {f g : NormalForm}

/-- On different numbers of variables there is the fault and nothing else happens. -/
theorem checkedAssign_of_ne (h : g.arity ≠ f.arity) :
    op.apply f g = .error op.mismatch ∧
      op.checkedAssign f.terms g.terms = (fault (.arityMismatch op.mismatch), f.terms) := by
  constructor
  · cases op <;> exact dif_neg h
  · exact if_pos (Ne.symm h)

theorem checkedAssign_of_eq (h : g.arity = f.arity) :
    ∃ s, op.apply f g = .ok s ∧ op.checkedAssign f.terms g.terms = (.ok (), s.terms) := by
  obtain ⟨s, hs, hterms⟩ : ∃ s, op.assign f g = (.ok (), s) ∧
      s.terms = ⟨f.arity, op.combine f.polynomial.monomials g.polynomial.monomials⟩ := by
    have hsum := congrArg (Terms.mk f.arity) (combine_sum f.polynomial g.polynomial).symm
    have hproduct := congrArg (Terms.mk f.arity) (combine_product f.polynomial g.polynomial).symm
    cases op with
    | xor => exact ⟨_, dif_pos h, hsum⟩
    | add => exact ⟨_, dif_pos h, hsum⟩
    | and => exact ⟨_, dif_pos h, hproduct⟩
    | mul => exact ⟨_, dif_pos h, hproduct⟩
  refine ⟨s, ?_, hterms ▸ if_neg (not_not.2 h.symm)⟩
  rw [assign_eq] at hs
  split at hs
  · next r hr => cases hs; exact hr
  · next e he => cases hs

theorem checkedApply_of_ne (h : g.arity ≠ f.arity) :
    op.checkedApply f.terms g.terms = fault (.arityMismatch op.mismatch) := by
  rw [checkedApply, (op.checkedAssign_of_ne h).2]
  rfl

theorem checkedApply_of_eq (h : g.arity = f.arity) :
    op.checkedApply f.terms g.terms = faultless ((op.apply f g).map terms) := by
  obtain ⟨s, hs, hassign⟩ := op.checkedAssign_of_eq h
  rw [checkedApply, hassign, hs]
  rfl

end NormalForm.Operator

end Keystream
