import Mathlib.Algebra.Ring.Parity
import Keystream.Proofs.BooleanRing
import Keystream.Proofs.Checked.Forms

/-!
# Normal forms of lists of monomials

The sum of a list keeps the monomials that occur an odd number of times, in whatever order the list
has them, and joining two lists adds their sums. A list with a monomial out of range has no normal
form, and the first such monomial is named; the loop that stops at it has nothing else to stop at.
-/

namespace Keystream

open Checked

theorem paritySum_eq_true_iff {α : Type} (l : List α) (φ : α → Bool) :
    paritySum l φ = true ↔ Odd (l.countP φ) := by
  rw [paritySum_eq_countP, beq_iff_eq, Nat.odd_iff]

namespace Polynomial

theorem mem_ofMonomials {ms : List Monomial} {m : Monomial} :
    m ∈ (ofMonomials ms).monomials ↔ Odd (ms.count m) := by
  rw [mem_iff_paritySum, paritySum_ofMonomials, paritySum_eq_true_iff, List.count_eq_countP]
  rfl

theorem ofMonomials_perm {ms rs : List Monomial} (h : ms.Perm rs) :
    ofMonomials ms = ofMonomials rs := by
  apply ext_paritySum
  intro φ
  rw [paritySum_ofMonomials, paritySum_ofMonomials, paritySum_perm h]

theorem ofMonomials_append (ms rs : List Monomial) :
    ofMonomials (ms ++ rs) = ofMonomials ms + ofMonomials rs := by
  apply ext_paritySum
  intro φ
  rw [paritySum_add, paritySum_ofMonomials, paritySum_ofMonomials, paritySum_ofMonomials,
    paritySum_append]

end Polynomial

/-- Of the monomials of the list, `m` is the first with a variable that is not among the first
`n`. -/
def FirstBeyond (n : Nat) (ms : List Monomial) (m : Monomial) : Prop :=
  ∃ before after, ms = before ++ m :: after ∧ (∀ r ∈ before, r.toNat < 2 ^ n) ∧ 2 ^ n ≤ m.toNat

namespace FirstBeyond

variable {n : Nat} {ms rs : List Monomial} {m : Monomial}

theorem iff_find : FirstBeyond n ms m ↔
    ms.find? (fun m => !Bits.fits n m.toNat) = some m := by
  rw [List.find?_eq_some_iff_append]
  simp only [Bool.not_not, Bits.fits_iff, Bool.not_eq_true', ← Bool.not_eq_true, Nat.not_lt]
  constructor
  · rintro ⟨before, after, he, hbefore, hm⟩
    exact ⟨hm, before, after, he, hbefore⟩
  · rintro ⟨hm, before, after, he, hbefore⟩
    exact ⟨before, after, he, hbefore, hm⟩

theorem append_left (h : FirstBeyond n ms m) : FirstBeyond n (ms ++ rs) m := by
  obtain ⟨before, after, rfl, hbefore, hm⟩ := h
  exact ⟨before, after ++ rs, List.append_assoc _ _ _, hbefore, hm⟩

theorem append_right (hms : ∀ r ∈ ms, r.toNat < 2 ^ n) (h : FirstBeyond n rs m) :
    FirstBeyond n (ms ++ rs) m := by
  obtain ⟨before, after, rfl, hbefore, hm⟩ := h
  refine ⟨ms ++ before, after, (List.append_assoc _ _ _).symm, ?_, hm⟩
  intro r hr
  exact (List.mem_append.1 hr).elim (hms r) (hbefore r)

end FirstBeyond

theorem exists_firstBeyond_or (n : Nat) (ms : List Monomial) :
    (∃ m, FirstBeyond n ms m) ∨ ∀ m ∈ ms, m.toNat < 2 ^ n := by
  cases hfind : ms.find? (fun m => !Bits.fits n m.toNat) with
  | some m => exact .inl ⟨m, FirstBeyond.iff_find.2 hfind⟩
  | none =>
    refine .inr fun m hm => Bits.fits_iff.1 ?_
    simpa using List.find?_eq_none.1 hfind m hm

namespace NormalForm

variable {n : Nat}

theorem ofMonomials_of_firstBeyond (h : 0 < n ∧ n ≤ 63) {ms : List Monomial} {m : Monomial}
    (hm : FirstBeyond n ms m) : ofMonomials n ms = .error (.monomialOutOfRange m n) := by
  have hfind := FirstBeyond.iff_find.1 hm
  rw [ofMonomials, build_of_range h]
  split
  · next r hr =>
    rw [hfind] at hr
    cases hr
    rfl
  · next hnone =>
    rw [hfind] at hnone
    cases hnone

theorem exists_ofMonomials (h : 0 < n ∧ n ≤ 63) {ms : List Monomial}
    (hms : ∀ m ∈ ms, m.toNat < 2 ^ n) :
    ∃ f, ofMonomials n ms = .ok f ∧ f.arity = n ∧ f.polynomial = .ofMonomials ms := by
  have hnone : ms.find? (fun m => !Bits.fits n m.toNat) = none := by
    rw [List.find?_eq_none]
    intro m hm
    rw [Bits.fits_iff.2 (hms m hm)]
    exact Bool.false_ne_true
  rw [ofMonomials, build_of_range h]
  split
  · next r hr =>
    rw [hnone] at hr
    cases hr
  · exact ⟨_, rfl, rfl, rfl⟩

theorem ofMonomials_append (h : 0 < n ∧ n ≤ 63) (ms rs : List Monomial) :
    ofMonomials n (ms ++ rs) =
      ofMonomials n ms >>= fun f => ofMonomials n rs >>= fun g => f.sum g := by
  obtain ⟨m, hm⟩ | hms := exists_firstBeyond_or n ms
  · rw [ofMonomials_of_firstBeyond h hm, ofMonomials_of_firstBeyond h hm.append_left]
    rfl
  · obtain ⟨f, hf, hfa, hfp⟩ := exists_ofMonomials h hms
    obtain ⟨m, hm⟩ | hrs := exists_firstBeyond_or n rs
    · rw [hf, ofMonomials_of_firstBeyond h hm, ofMonomials_of_firstBeyond h (hm.append_right hms)]
      rfl
    · obtain ⟨g, hg, hga, hgp⟩ := exists_ofMonomials h hrs
      have hboth : ∀ m ∈ ms ++ rs, m.toNat < 2 ^ n := by
        intro m hm
        exact (List.mem_append.1 hm).elim (hms m) (hrs m)
      obtain ⟨s, hs, hsa, hsp⟩ := exists_ofMonomials h hboth
      rw [hf, hg, hs]
      refine (Operator.xor.apply_eq_ok (hga.trans hfa.symm) (hsa.trans hfa.symm) ?_).symm
      rw [hsp, hfp, hgp]
      exact Polynomial.ofMonomials_append ms rs

/-- A list with a monomial out of range fails with the first of them. Any other gives, in whatever
order, the increasing monomials that occur an odd number of times. Joined lists give the sum of what
they give, or the first failure. The loop that toggles one monomial after another does the same. -/
theorem ofMonomials_mod_two (hpos : 0 < n) (hle : n ≤ 63) :
    (∀ ms : List Monomial,
      (∃ m, FirstBeyond n ms m ∧ ofMonomials n ms = .error (.monomialOutOfRange m n)) ∨
      (∀ m ∈ ms, m.toNat < 2 ^ n) ∧ ∃ f, ofMonomials n ms = .ok f ∧ f.arity = n ∧
        (∀ m, f.contains m = true ↔ Odd (ms.count m)) ∧
        f.polynomial.monomials.Pairwise (· < ·) ∧
        (∀ m, m ∈ f.polynomial.monomials ↔ Odd (ms.count m)) ∧
        ∀ rs, rs.Perm ms → ofMonomials n rs = .ok f) ∧
    (∀ ms rs : List Monomial,
      ofMonomials n (ms ++ rs) =
        ofMonomials n ms >>= fun f => ofMonomials n rs >>= fun g => f.sum g) ∧
    ∀ ms, Terms.ofMonomials n ms = faultless ((ofMonomials n ms).map terms) := by
  have h : 0 < n ∧ n ≤ 63 := ⟨hpos, hle⟩
  refine ⟨?_, ofMonomials_append h, Terms.ofMonomials_eq n⟩
  intro ms
  obtain ⟨m, hm⟩ | hms := exists_firstBeyond_or n ms
  · exact .inl ⟨m, hm, ofMonomials_of_firstBeyond h hm⟩
  · obtain ⟨f, hf, ha, hp⟩ := exists_ofMonomials h hms
    have hmem : ∀ m, m ∈ f.polynomial.monomials ↔ Odd (ms.count m) := by
      intro m
      rw [hp]
      exact Polynomial.mem_ofMonomials
    refine .inr ⟨hms, f, hf, ha, ?_, f.polynomial.increasing, hmem, ?_⟩
    · intro m
      rw [contains, List.contains_iff_mem]
      exact hmem m
    · intro rs hperm
      obtain ⟨g, hg, hga, hgp⟩ := exists_ofMonomials h fun m hm => hms m (hperm.mem_iff.1 hm)
      obtain rfl : g = f := by
        apply ext_polynomial (hga.trans ha.symm)
        rw [hgp, hp, Polynomial.ofMonomials_perm hperm]
      exact hg

/-- Of `x0 x1`, `x2`, `x0 x1`, 1, `x2` and `x2`, in two orders, 1 and `x2` stay; the variable `x3`
is one too many, before `x4`. -/
theorem ofMonomials_mod_two_example :
    (0 < 3 ∧ 3 ≤ 63) ∧
    (∃ f, ofMonomials 3 [0b011, 0b100, 0b011, 0, 0b100, 0b100] = .ok f ∧
      ofMonomials 3 [0, 0b100, 0b100, 0b100, 0b011, 0b011] = .ok f ∧ f.contains 0b011 = false ∧
      f.polynomial.monomials = [0, 0b100]) ∧
    ofMonomials 3 [0b011, 0b1000, 0, 0b10000] = .error (.monomialOutOfRange 0b1000 3) ∧
    ofMonomials 3 ([0b011, 0b100] ++ [0b011]) =
      ofMonomials 3 [0b011, 0b100] >>= fun f => ofMonomials 3 [0b011] >>= fun g => f.sum g := by
  have hpos : 0 < 3 := by decide
  have hle : 3 ≤ 63 := by decide
  obtain ⟨hlists, happend, -⟩ := ofMonomials_mod_two hpos hle
  refine ⟨⟨hpos, hle⟩, ?_, ?_, happend _ _⟩
  · obtain ⟨f, hf, hkept⟩ : ∃ f, ofMonomials 3 [0b011, 0b100, 0b011, 0, 0b100, 0b100] = .ok f ∧
        f.polynomial.monomials = [0, 0b100] := ⟨_, rfl, by decide +kernel⟩
    obtain ⟨m, -, he⟩ | ⟨-, g, hg, -, hcontains, -, -, hperm⟩ :=
      hlists [0b011, 0b100, 0b011, 0, 0b100, 0b100]
    · cases he.symm.trans hf
    · cases hg.symm.trans hf
      refine ⟨f, hf, hperm _ (by decide), ?_, hkept⟩
      rw [← Bool.not_eq_true, hcontains]
      decide
  · obtain ⟨m, hm, he⟩ | ⟨hwithin, -⟩ := hlists [0b011, 0b1000, 0, 0b10000]
    · rw [he]
      cases FirstBeyond.iff_find.1 hm
      rfl
    · exact absurd (hwithin 0b1000 (by decide)) (by decide)

end NormalForm

end Keystream
