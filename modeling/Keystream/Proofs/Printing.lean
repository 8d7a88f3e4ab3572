import Keystream.Proofs.Parsing

/-!
# Reading what was written

The text of a normal form renders a tree without groups: a sum of products of variables, one product
for each monomial. Summing over the monomials of that tree multiplied out gives back the sums over
the normal form, none of which cancels, so reading the text gives back the normal form itself.
-/

namespace Keystream

theorem toList_intercalate_cons (sep t : String) (l : List String) :
    (sep.intercalate (t :: l)).toList =
      t.toList ++ l.flatMap fun u => sep.toList ++ u.toList := by
  induction l generalizing t with
  | nil => rw [String.intercalate_singleton, List.flatMap_nil, List.append_nil]
  | cons u l ih =>
    rw [String.intercalate_cons_cons, String.toList_append, String.toList_append, ih,
      List.flatMap_cons]
    simp only [List.append_assoc]

theorem decimal_toDigits (k : Nat) : Expr.decimal (Nat.toDigits 10 k) = k := by
  rw [Expr.decimal, ← Nat.ofDigitChars_eq_foldl, Nat.ofDigitChars_ten_toDigits]

namespace Monomial

/-- A monomial is made of the variables in its support. -/
theorem foldl_support (m : Monomial) :
    (support m).foldl (fun m i => m ||| ofVariable i) 0 = m := by
  have hsupport : ∀ i, i ∈ support m ↔ i < 64 ∧ Word.bit m i = true := by
    intro i
    rw [support, List.mem_filter, List.mem_range]
  apply Word.ext_bit
  intro j hj
  have hbit := Word.bit_foldl_single (fun i hi => ((hsupport i).1 hi).1) 0 j
  refine hbit.trans ?_
  rw [Word.bit_zero, Bool.false_or]
  cases hm : Word.bit m j <;> simp [hsupport, hj, hm]

end Monomial

namespace Expr

variable {n : Nat} {numbering : Numbering}

/-- The tree has no groups, is rendered as `cs`, and sums any `φ` to `total φ` multiplied out. -/
structure Writes (numbering : Numbering) (cs : List Char) (total : (Monomial → Bool) → Bool)
    {l : Level} (e : Expr n l) : Prop where
  renders : e.Renders numbering cs
  depth_eq : e.depth = 0
  paritySum_eq : ∀ φ, paritySum e.polynomial.monomials φ = total φ

def variableText (numbering : Numbering) (i : Nat) : List Char :=
  'x' :: Nat.toDigits 10 (numbering.first + i)

theorem writes_var (numbering : Numbering) (i : Fin n) :
    Writes numbering (variableText numbering i) (fun φ => φ (.ofVariable i)) (.var i) where
  renders := by
    have hd : ∀ d ∈ Nat.toDigits 10 (numbering.first + i), d.isDigit = true := fun _ h =>
      Nat.isDigit_of_mem_toDigits (by decide) (by decide) h
    have hnil : ∀ c ∈ ([] : List Char).head?, c.isDigit = false := nofun
    have hl := Layout.var hd hnil .done
    rw [List.append_nil] at hl
    exact ⟨_, hl, .var Nat.toDigits_ne_nil (decimal_toDigits _)⟩
  depth_eq := rfl
  paritySum_eq φ := (Polynomial.paritySum_ofMonomials _ φ).trans (Bool.xor_false _)

theorem Writes.single {cs : List Char} {total : (Monomial → Bool) → Bool} {f : Expr n .factor}
    (h : Writes numbering cs total f) : Writes numbering cs total (.single f) := by
  obtain ⟨⟨ts, hl, hs⟩, hd, hsum⟩ := h
  exact ⟨⟨ts, hl, .single hs⟩, hd, hsum⟩

theorem Writes.term {cs : List Char} {total : (Monomial → Bool) → Bool} {p : Expr n .product}
    (h : Writes numbering cs total p) : Writes numbering cs total (.term p) := by
  obtain ⟨⟨ts, hl, hs⟩, hd, hsum⟩ := h
  exact ⟨⟨ts, hl, .term hs⟩, hd, hsum⟩

theorem Writes.mul_var {cs : List Char} {m : Monomial} {p : Expr n .product}
    (h : Writes numbering cs (fun φ => φ m) p) (i : Fin n) :
    Writes numbering (cs ++ ' ' :: variableText numbering i)
      (fun φ => φ (m ||| .ofVariable i)) (.mul p (.var i)) := by
  obtain ⟨⟨ts, hl, hs⟩, hd, hsum⟩ := h
  obtain ⟨⟨us, hlu, hsu⟩, hdu, hsumu⟩ := writes_var numbering i
  refine ⟨⟨ts ++ us, ?_, .mul hs hsu⟩, ?_, ?_⟩
  · refine hl.append (.blank (by decide) hlu) ?_
    rintro c ⟨⟩
    decide
  · rw [depth, hd, hdu]
    rfl
  · intro φ
    rw [polynomial, Polynomial.paritySum_mul]
    simp only [hsumu, hsum]

theorem Writes.add {cs ds : List Char} {total total' : (Monomial → Bool) → Bool}
    {s : Expr n .sum} {p : Expr n .product} (h : Writes numbering cs total s)
    (hp : Writes numbering ds total' p) :
    Writes numbering (cs ++ ' ' :: '+' :: ' ' :: ds) (fun φ => total φ ^^ total' φ)
      (.add s p) := by
  obtain ⟨⟨ts, hl, hs⟩, hd, hsum⟩ := h
  obtain ⟨⟨us, hlu, hsu⟩, hdu, hsumu⟩ := hp
  refine ⟨⟨ts ++ .plus :: us, ?_, .add hs hsu⟩, ?_, ?_⟩
  · have hplus : Layout (.plus :: us) (' ' :: '+' :: ' ' :: ds) :=
      .blank (by decide) (.char (c := '+') (by decide) (by decide) (.blank (by decide) hlu))
    refine hl.append hplus ?_
    rintro c ⟨⟩
    decide
  · rw [depth, hd, hdu]
    rfl
  · intro φ
    rw [polynomial, Polynomial.paritySum_add, hsum, hsumu]

theorem exists_writes_variables {is : List Nat} (his : ∀ i ∈ is, i < n) {cs : List Char}
    {m : Monomial} {p : Expr n .product} (h : Writes numbering cs (fun φ => φ m) p) :
    ∃ q : Expr n .product,
      Writes numbering (cs ++ is.flatMap fun i => ' ' :: variableText numbering i)
        (fun φ => φ (is.foldl (fun m i => m ||| .ofVariable i) m)) q := by
  induction is generalizing cs m p with
  | nil =>
    rw [List.flatMap_nil, List.append_nil]
    exact ⟨p, h⟩
  | cons i is ih =>
    have hi : i < n := his i List.mem_cons_self
    obtain ⟨q, hq⟩ := ih (fun j hj => his j (List.mem_cons_of_mem i hj)) (h.mul_var ⟨i, hi⟩)
    rw [List.append_assoc] at hq
    exact ⟨q, hq⟩

theorem toList_text_of_support {m : Monomial} (hm : m ≠ 0) {i : Nat} {is : List Nat}
    (h : m.support = i :: is) :
    (m.text numbering).toList =
      variableText numbering i ++ is.flatMap fun j => ' ' :: variableText numbering j := by
  have hvar : ∀ j, s!"x{numbering.first + j}".toList = variableText numbering j := by
    intro j
    change ("x" ++ (numbering.first + j).repr).toList = _
    rw [String.toList_append, Nat.toList_repr]
    rfl
  rw [Monomial.text, if_neg hm, h, List.map_cons, toList_intercalate_cons, hvar, List.flatMap_map]
  simp only [hvar]
  rfl

theorem exists_writes_monomial (numbering : Numbering) {m : Monomial} (hm : m.toNat < 2 ^ n) :
    ∃ p : Expr n .product, Writes numbering (m.text numbering).toList (fun φ => φ m) p := by
  by_cases h : m = 0
  · subst h
    have hone : Writes numbering ['1'] (fun φ => φ 0) (.const true : Expr n .factor) :=
      ⟨⟨_, .char (by decide) (by decide) .done, .one⟩, rfl, fun φ => Bool.xor_false (φ 0)⟩
    rw [Monomial.text, if_pos rfl]
    exact ⟨_, hone.single⟩
  · have hsupport : ∀ i ∈ m.support, i < n := by
      intro i hi
      exact Word.lt_of_bit hm (List.mem_filter.1 hi).2
    have hfold := Monomial.foldl_support m
    cases hs : m.support with
    | nil =>
      rw [hs] at hfold
      exact absurd hfold.symm h
    | cons i is =>
      rw [hs] at hfold hsupport
      rw [List.foldl_cons, UInt64.zero_or] at hfold
      have hi : i < n := hsupport i List.mem_cons_self
      obtain ⟨p, hp⟩ := exists_writes_variables
        (fun j hj => hsupport j (List.mem_cons_of_mem i hj))
        (writes_var numbering ⟨i, hi⟩).single
      rw [hfold] at hp
      rw [toList_text_of_support h hs]
      exact ⟨p, hp⟩

theorem exists_writes_sum {ms : List Monomial} (hms : ∀ m ∈ ms, m.toNat < 2 ^ n)
    {cs : List Char} {total : (Monomial → Bool) → Bool} {s : Expr n .sum}
    (h : Writes numbering cs total s) :
    ∃ t : Expr n .sum,
      Writes numbering (cs ++ ms.flatMap fun m => ' ' :: '+' :: ' ' :: (m.text numbering).toList)
        (fun φ => total φ ^^ paritySum ms φ) t := by
  induction ms generalizing cs total s with
  | nil =>
    simp only [List.flatMap_nil, List.append_nil, paritySum_nil, Bool.xor_false]
    exact ⟨s, h⟩
  | cons m ms ih =>
    obtain ⟨p, hp⟩ := exists_writes_monomial numbering (hms m List.mem_cons_self)
    obtain ⟨t, ht⟩ := ih (fun r hr => hms r (List.mem_cons_of_mem m hr)) (h.add hp)
    simp only [List.append_assoc, Bool.xor_assoc] at ht
    exact ⟨t, by simpa only [List.flatMap_cons, List.append_assoc, paritySum_cons] using ht⟩

end Expr

namespace NormalForm

theorem exists_writes (f : NormalForm) (numbering : Numbering) :
    ∃ e : Expr f.arity .sum,
      e.Writes numbering (f.text numbering).toList (paritySum f.polynomial.monomials) := by
  by_cases h : f.polynomial = 0
  · have hzero : Expr.Writes numbering ['0'] (fun _ => false)
        (.const false : Expr f.arity .factor) :=
      ⟨⟨_, .char (by decide) (by decide) .done, .zero⟩, rfl, fun _ => rfl⟩
    rw [text, if_pos h, h]
    exact ⟨_, hzero.single.term⟩
  · have hperm : f.writtenMonomials.Perm f.polynomial.monomials := List.mergeSort_perm _ _
    have hlt : ∀ m ∈ f.writtenMonomials, m.toNat < 2 ^ f.arity := fun m hm =>
      f.within m (hperm.mem_iff.1 hm)
    have hsum : paritySum f.polynomial.monomials = paritySum f.writtenMonomials :=
      funext fun φ => (paritySum_perm hperm φ).symm
    have hplus : " + ".toList = [' ', '+', ' '] := rfl
    rw [text, if_neg h, hsum]
    cases hw : f.writtenMonomials with
    | nil =>
      rw [hw] at hperm
      exact absurd (Polynomial.ext_mem fun m => by rw [hperm.symm.eq_nil]; rfl) h
    | cons m ms =>
      rw [hw] at hlt
      obtain ⟨p, hp⟩ := Expr.exists_writes_monomial numbering
        (hlt m List.mem_cons_self)
      obtain ⟨e, he⟩ := Expr.exists_writes_sum
        (fun r hr => hlt r (List.mem_cons_of_mem m hr)) hp.term
      rw [List.map_cons, toList_intercalate_cons, List.flatMap_map, hplus]
      exact ⟨e, he⟩

theorem parse_text (f : NormalForm) (numbering : Numbering) :
    parse f.arity numbering (f.text numbering) = .ok f := by
  obtain ⟨e, he⟩ := f.exists_writes numbering
  have hparse : Expr.parse f.arity numbering (f.text numbering) = .ok e :=
    Expr.parse_eq_ok_iff.2 ⟨he.renders, he.depth_eq ▸ Nat.zero_le _⟩
  have hpolynomial : e.polynomial = f.polynomial := Polynomial.ext_paritySum he.paritySum_eq
  refine parse_eq_ok_iff.2 ⟨f.arity_range, e, hparse, ?_⟩
  obtain ⟨arity, polynomial, hrange, hwithin⟩ := f
  unfold ofExpr
  congr
  exact hpolynomial.symm

end NormalForm

namespace BooleanFunction

theorem arity_normalForm (f : BooleanFunction) : f.normalForm.1.arity = f.arity := by
  match f with
  | sparse form table h => rfl
  | dense table none h => rfl
  | dense table (some form) h => exact congrArg NormalForm.arity (h form rfl).symm

theorem equal_ofForm (f : BooleanFunction) :
    ((ofForm f.normalForm.1).equal f).1 = true ∧ (f.equal (ofForm f.normalForm.1)).1 = true := by
  have harity : (ofForm f.normalForm.1).arity = f.arity := f.arity_normalForm
  unfold equal
  rw [if_pos harity, if_pos harity.symm]
  exact ⟨decide_eq_true rfl, decide_eq_true rfl⟩

end BooleanFunction

/-- Writing and reading is the identity on normal forms, hence on functions up to equality. -/
theorem NormalForm.text_round_trip :
    (∀ (f : NormalForm) (numbering : Numbering),
      parse f.arity numbering (f.text numbering) = .ok f) ∧
    (∀ (f g : NormalForm) (numbering : Numbering), f.arity = g.arity →
      f.text numbering = g.text numbering → f = g) ∧
    ∀ f : BooleanFunction, ∃ g, BooleanFunction.parse f.arity .fromZero f.text.1 = .ok g ∧
      (g.equal f).1 = true ∧ (f.equal g).1 = true := by
  refine ⟨parse_text, ?_, ?_⟩
  · intro f g numbering harity htext
    have hf := f.parse_text numbering
    rw [harity, htext, g.parse_text numbering] at hf
    exact (Except.ok.inj hf).symm
  · intro f
    refine ⟨.ofForm f.normalForm.1, ?_, f.equal_ofForm⟩
    change (parse f.arity .fromZero (f.normalForm.1.text .fromZero)).map _ = _
    rw [← f.arity_normalForm, parse_text]
    rfl

theorem NormalForm.text_round_trip_example :
    ∃ f g, one 3 = .ok f ∧ ofMonomials 3 [6, 0, 6] = .ok g ∧ f.arity = g.arity ∧
      f.text .fromOne = g.text .fromOne ∧ f = g :=
  ⟨_, _, rfl, rfl, rfl, rfl, text_round_trip.2.1 _ _ .fromOne rfl rfl⟩

end Keystream
