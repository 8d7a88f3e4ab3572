import Keystream.Proofs.Parsing

/-!
# Renumbered variables

A text read for more variables, or from a lower first number on, spells the same tree with its
variables renamed. Multiplying out commutes with any map of monomials that joins variables as
monomials do, whatever cancels on the way; moving all variables up is such a map, and it keeps the
order of monomials.
-/

namespace Keystream

namespace Monomial

/-- The monomial with every variable moved up by `d`. -/
def raise (d : Nat) (m : Monomial) : Monomial :=
  UInt64.ofNat (m.toNat <<< d)

theorem bit_raise (d : Nat) (m : Monomial) {i : Nat} (hi : i < 64) :
    Word.bit (raise d m) i = (decide (d ≤ i) && Word.bit m (i - d)) := by
  rw [raise, Word.bit_ofNat _ hi, Nat.testBit_shiftLeft]
  rfl

theorem raise_or (d : Nat) (m r : Monomial) : raise d (m ||| r) = raise d m ||| raise d r := by
  apply Word.ext_bit
  intro i hi
  rw [bit_raise d _ hi, Word.bit_or, Word.bit_or, bit_raise d m hi, bit_raise d r hi,
    Bool.and_or_distrib_left]

@[simp] theorem raise_empty (d : Nat) : raise d 0 = 0 := by
  rw [raise, UInt64.toNat_zero, Nat.zero_shiftLeft]
  rfl

@[simp] theorem raise_zero (m : Monomial) : raise 0 m = m := by
  rw [raise, Nat.shiftLeft_zero, UInt64.ofNat_toNat]

theorem raise_ofVariable {d i : Nat} (h : d + i < 64) :
    raise d (.ofVariable i) = .ofVariable (d + i) := by
  have hi : i < 64 := by omega
  apply Word.ext_bit
  intro j hj
  rw [bit_raise d _ hj, ofVariable, ofVariable, Word.bit_single hi, Word.bit_single h,
    ← Bool.decide_and, decide_eq_decide]
  omega

theorem toNat_raise {n d : Nat} {m : Monomial} (hm : m.toNat < 2 ^ n) (h : n + d ≤ 64) :
    (raise d m).toNat = m.toNat * 2 ^ d := by
  have hlt : m.toNat * 2 ^ d < 2 ^ 64 := by
    calc m.toNat * 2 ^ d < 2 ^ n * 2 ^ d := Nat.mul_lt_mul_of_pos_right hm (Nat.two_pow_pos d)
      _ = 2 ^ (n + d) := (Nat.pow_add 2 n d).symm
      _ ≤ 2 ^ 64 := Nat.pow_le_pow_right Nat.two_pos h
  rw [raise, Nat.shiftLeft_eq, UInt64.toNat_ofNat', Nat.mod_eq_of_lt hlt]

theorem raise_lt_raise {n d : Nat} {m r : Monomial} (hm : m.toNat < 2 ^ n) (hr : r.toNat < 2 ^ n)
    (h : n + d ≤ 64) (hlt : m < r) : raise d m < raise d r := by
  rw [UInt64.lt_iff_toNat_lt] at hlt ⊢
  rw [toNat_raise hm h, toNat_raise hr h]
  exact Nat.mul_lt_mul_of_pos_right hlt (Nat.two_pow_pos d)

/-- What a raised monomial asks of an input, the monomial asks of the input moved down. -/
theorem holdsAt_raise {n d : Nat} {m : Monomial} (hm : m.toNat < 2 ^ n) (h : n + d ≤ 64)
    (hd : d < 64) (input : UInt64) :
    (raise d m).holdsAt input = m.holdsAt (input >>> UInt64.ofNat d) := by
  rw [Bool.eq_iff_iff, holdsAt_iff, holdsAt_iff]
  constructor
  · intro hall i hi
    have hin : i < n := Word.lt_of_bit hm hi
    have hraised : Word.bit (raise d m) (d + i) = true := by
      rw [bit_raise d m (by omega), decide_eq_true (Nat.le_add_right d i), Nat.add_sub_cancel_left,
        hi]
      rfl
    rw [Word.bit_shiftRight input hd]
    exact hall (d + i) hraised
  · intro hall j hj
    have hj64 : j < 64 := Word.lt_of_bit (UInt64.toNat_lt _) hj
    rw [bit_raise d m hj64, Bool.and_eq_true, decide_eq_true_eq] at hj
    have hbit := hall (j - d) hj.2
    rwa [Word.bit_shiftRight input hd, Nat.add_sub_cancel' hj.1] at hbit

end Monomial

namespace Expr

variable {n k : Nat} {numbering numbering' : Numbering}

/-- The tree with every variable replaced by another one. -/
def rename (σ : Fin n → Fin k) {l : Level} : Expr n l → Expr k l
  | const b => .const b
  | var i => .var (σ i)
  | group e => .group (e.rename σ)
  | single f => .single (f.rename σ)
  | mul p f => .mul (p.rename σ) (f.rename σ)
  | term p => .term (p.rename σ)
  | add s p => .add (s.rename σ) (p.rename σ)

@[simp] theorem depth_rename (σ : Fin n → Fin k) {l : Level} (e : Expr n l) :
    (e.rename σ).depth = e.depth := by
  induction e with
  | const b => rfl
  | var i => rfl
  | group e ih => rw [rename, depth, depth, ih]
  | single f ih => exact ih
  | mul p f ihp ihf => rw [rename, depth, depth, ihp, ihf]
  | term p ih => exact ih
  | add s p ihs ihp => rw [rename, depth, depth, ihs, ihp]

/-- The same tokens spell both trees if every variable keeps its number in the text. -/
theorem Spells.rename {σ : Fin n → Fin k}
    (hσ : ∀ i : Fin n, numbering.first + i = numbering'.first + σ i) {l : Level} {e : Expr n l}
    {ts : List Token} (h : Spells numbering e ts) : Spells numbering' (e.rename σ) ts := by
  induction h with
  | zero => exact .zero
  | one => exact .one
  | var hd hi => exact .var hd (hi.trans (hσ _))
  | group _ ih => exact .group ih
  | single _ ih => exact .single ih
  | mul _ _ ih ihf => exact .mul ih ihf
  | term _ ih => exact .term ih
  | add _ _ ih ihp => exact .add ih ihp

theorem parse_rename {σ : Fin n → Fin k}
    (hσ : ∀ i : Fin n, numbering.first + i = numbering'.first + σ i) {s : String}
    {e : Expr n .sum} (h : parse n numbering s = .ok e) :
    parse k numbering' s = .ok (e.rename σ) := by
  obtain ⟨⟨ts, hl, hs⟩, hd⟩ := parse_eq_ok_iff.1 h
  exact parse_eq_ok_iff.2 ⟨⟨ts, hl, hs.rename hσ⟩, (e.depth_rename σ).symm ▸ hd⟩

/-- A map of monomials that joins variables as monomials do and follows a map of variables. -/
structure Follows (ρ : Monomial → Monomial) (σ : Fin n → Fin k) : Prop where
  empty : ρ 0 = 0
  or : ∀ m r, ρ (m ||| r) = ρ m ||| ρ r
  ofVariable : ∀ i : Fin n, ρ (.ofVariable i) = .ofVariable (σ i)

/-- Multiplied out, a renamed tree sums up the renamed monomials. -/
theorem paritySum_rename {ρ : Monomial → Monomial} {σ : Fin n → Fin k} (h : Follows ρ σ) {l : Level}
    (e : Expr n l) (φ : Monomial → Bool) :
    paritySum (e.rename σ).polynomial.monomials φ =
      paritySum e.polynomial.monomials fun m => φ (ρ m) := by
  induction e generalizing φ with
  | const b =>
    cases b with
    | false => rfl
    | true => exact congrArg (φ · ^^ false) h.empty.symm
  | var i =>
    simp only [rename, polynomial, Polynomial.paritySum_ofMonomials, paritySum_cons, h.ofVariable,
      paritySum_nil]
  | group e ih => exact ih φ
  | single f ih => exact ih φ
  | mul p f ihp ihf =>
    rw [rename, polynomial, polynomial, Polynomial.paritySum_mul, Polynomial.paritySum_mul, ihp]
    simp only [ihf, h.or]
  | term p ih => exact ih φ
  | add s p ihs ihp =>
    rw [rename, polynomial, polynomial, Polynomial.paritySum_add, Polynomial.paritySum_add, ihs, ihp]

/-- A map that keeps the order of monomials takes them to those of the renamed tree, one by one. -/
theorem monomials_rename {ρ : Monomial → Monomial} {σ : Fin n → Fin k} (h : Follows ρ σ) {l : Level}
    {e : Expr n l} (hlt : e.polynomial.monomials.Pairwise fun m r => ρ m < ρ r) :
    (e.rename σ).polynomial.monomials = e.polynomial.monomials.map ρ := by
  have hmapped : (e.rename σ).polynomial =
      ⟨e.polynomial.monomials.map ρ, List.pairwise_map.2 hlt⟩ := by
    apply Polynomial.ext_paritySum
    intro φ
    rw [paritySum_rename h, paritySum_map]
  rw [hmapped]

/-- Variable `i` of `n` as variable `d + i` of `k`. -/
def raiseVariable {d : Nat} (h : d + n ≤ k) (i : Fin n) : Fin k :=
  ⟨d + i, by omega⟩

theorem follows_raise {d : Nat} (h : d + n ≤ k) (hk : k ≤ 64) :
    Follows (Monomial.raise d) (raiseVariable (n := n) h) where
  empty := Monomial.raise_empty d
  or := Monomial.raise_or d
  ofVariable i := Monomial.raise_ofVariable (by have := i.isLt; omega)

end Expr

namespace NormalForm

/-- A text with numbers from a higher first one, read from a lower one, has its variables raised by
the difference. -/
theorem parse_raise {n k d : Nat} {numbering numbering' : Numbering}
    (hfirst : numbering.first = numbering'.first + d) (h : d + n ≤ k) (hk : k ≤ 63) {s : String}
    {f : NormalForm} (hf : parse n numbering s = .ok f) :
    ∃ g, parse k numbering' s = .ok g ∧ g.arity = k ∧
      g.polynomial.monomials = f.polynomial.monomials.map (Monomial.raise d) := by
  obtain ⟨hn, e, he, rfl⟩ := parse_eq_ok_iff.1 hf
  have hσ : ∀ i : Fin n, numbering.first + i = numbering'.first + Expr.raiseVariable h i := by
    intro i
    rw [hfirst, Nat.add_assoc]
    rfl
  have hrange : 0 < k ∧ k ≤ 63 := ⟨by omega, hk⟩
  have hwithin := (ofExpr hn e).within
  refine ⟨ofExpr hrange (e.rename (Expr.raiseVariable h)), ?_, rfl, ?_⟩
  · exact parse_eq_ok_iff.2 ⟨hrange, _, Expr.parse_rename hσ he, rfl⟩
  · apply Expr.monomials_rename (Expr.follows_raise h (by omega))
    apply e.polynomial.increasing.imp_of_mem
    intro m r hm hr hlt
    exact Monomial.raise_lt_raise (hwithin m hm) (hwithin r hr) (show n + d ≤ 64 by omega) hlt

theorem arity_of_parse {n : Nat} {numbering : Numbering} {s : String} {f : NormalForm}
    (h : parse n numbering s = .ok f) : f.arity = n := by
  obtain ⟨-, e, -, rfl⟩ := parse_eq_ok_iff.1 h
  rfl

theorem eval_raise {f g : NormalForm} {d : Nat} (hd : f.arity + d ≤ 63)
    (h : g.polynomial.monomials = f.polynomial.monomials.map (Monomial.raise d)) (v : UInt64) :
    g.eval v = f.eval (v >>> UInt64.ofNat d) := by
  have harity := f.arity_pos
  change g.polynomial.eval v = f.polynomial.eval _
  rw [Polynomial.eval_eq_paritySum, Polynomial.eval_eq_paritySum, h, paritySum_map]
  apply paritySum_congr
  intro m hm
  exact Monomial.holdsAt_raise (f.within m hm) (Nat.le_succ_of_le hd) (by omega) v

/-- An accepted text is accepted for more variables with the very same monomials. With numbers from
one it is also accepted where they start from zero, for one variable more, and all monomials are
doubled. -/
theorem parse_renumbered :
    (∀ (n n' : Nat) (numbering : Numbering) (s : String) (f : NormalForm), n ≤ n' → n' ≤ 63 →
      parse n numbering s = .ok f →
      ∃ g, parse n' numbering s = .ok g ∧ g.arity = n' ∧ g.polynomial = f.polynomial) ∧
    ∀ (n : Nat) (s : String) (f : NormalForm), n < 63 → parse n .fromOne s = .ok f →
      ∃ g, parse (n + 1) .fromZero s = .ok g ∧ g.arity = n + 1 ∧
        g.polynomial.monomials.map UInt64.toNat = f.polynomial.monomials.map (2 * ·.toNat) ∧
        ∀ v, g.eval v = f.eval (v >>> 1) := by
  constructor
  · intro n n' numbering s f hle hn' hf
    obtain ⟨g, hg, ha, hm⟩ := parse_raise (d := 0) rfl (by omega) hn' hf
    refine ⟨g, hg, ha, ?_⟩
    apply Polynomial.ext_mem
    intro m
    rw [hm, List.map_id'' Monomial.raise_zero]
  · intro n s f hn hf
    obtain rfl := arity_of_parse hf
    have hfirst : Numbering.fromOne.first = Numbering.fromZero.first + 1 := rfl
    have hsize : 1 + f.arity ≤ f.arity + 1 := Nat.le_of_eq (Nat.add_comm 1 f.arity)
    obtain ⟨g, hg, ha, hm⟩ := parse_raise hfirst hsize hn hf
    refine ⟨g, hg, ha, ?_, eval_raise hn hm⟩
    rw [hm, List.map_map]
    apply List.map_congr_left
    intro m hmem
    rw [Function.comp_apply, Monomial.toNat_raise (f.within m hmem) (Nat.le_succ_of_le hn),
      Nat.pow_one, Nat.mul_comm]

/-- The text `x1 + (x2 + 1) x03 x1` for three variables, for all 63, and with numbers from zero. -/
theorem parse_renumbered_example :
    ∃ f, parse 3 .fromOne "x1 + (x2 + 1) x03 x1" = .ok f ∧ 3 ≤ 63 ∧ 63 ≤ 63 ∧ 3 < 63 ∧
      f.polynomial.monomials = [0b001, 0b101, 0b111] ∧
      (∃ g, parse 63 .fromOne "x1 + (x2 + 1) x03 x1" = .ok g ∧ g.arity = 63 ∧
        g.polynomial = f.polynomial) ∧
      ∃ g, parse 4 .fromZero "x1 + (x2 + 1) x03 x1" = .ok g ∧ g.arity = 4 ∧
        g.polynomial.monomials.map UInt64.toNat = [0b0010, 0b1010, 0b1110] ∧
        ∀ v, g.eval v = f.eval (v >>> 1) := by
  obtain ⟨hraised, hrenumbered⟩ := parse_renumbered
  obtain ⟨f, hf, hm⟩ : ∃ f, parse 3 .fromOne "x1 + (x2 + 1) x03 x1" = .ok f ∧
      f.polynomial.monomials = [0b001, 0b101, 0b111] := by
    have hread : (parse 3 .fromOne "x1 + (x2 + 1) x03 x1").toOption.map
        (·.polynomial.monomials) = some [0b001, 0b101, 0b111] := by decide +kernel
    cases hparse : parse 3 .fromOne "x1 + (x2 + 1) x03 x1" with
    | error e => rw [hparse] at hread; cases hread
    | ok f =>
      rw [hparse] at hread
      exact ⟨f, rfl, Option.some.inj hread⟩
  have hlt : 3 < 63 := by decide
  obtain ⟨g, hg, ha, hmonomials, heval⟩ := hrenumbered 3 _ f hlt hf
  rw [hm] at hmonomials
  exact ⟨f, hf, Nat.le_of_lt hlt, Nat.le_refl 63, hlt, hm,
    hraised 3 63 _ _ f (Nat.le_of_lt hlt) (Nat.le_refl 63) hf, g, hg, ha, hmonomials, heval⟩

end NormalForm

end Keystream
