import Mathlib.Data.List.Nodup
import Mathlib.Data.List.Perm.Subperm
import Keystream.Proofs.Checked.Reading
import Keystream.Proofs.Degrees
import Keystream.Proofs.Printing

/-!
# What constructions leave

A construction puts a normal form together in any number of steps. Followed on terms alone, of which
nothing is known on the way, it still leaves increasing monomials in at most 63 variables and none
beyond them. The transform of the words of small tables may be any function, as its result is cut;
nothing else is.
-/

namespace Keystream

open Checked

namespace NormalForm

theorem length_monomials_le (f : NormalForm) : f.polynomial.monomials.length ≤ 2 ^ f.arity := by
  have hnodup : (f.polynomial.monomials.map UInt64.toNat).Nodup :=
    List.Nodup.map (fun _ _ => UInt64.toNat_inj.1) f.polynomial.nodup_monomials
  have hsubset : f.polynomial.monomials.map UInt64.toNat ⊆ List.range (2 ^ f.arity) := by
    intro v hv
    obtain ⟨m, hm, rfl⟩ := List.mem_map.1 hv
    exact List.mem_range.2 (f.within m hm)
  have hle := (hnodup.subperm hsubset).length_le
  rwa [List.length_map, List.length_range] at hle

theorem eval_mod (f : NormalForm) (input : UInt64) :
    f.eval (UInt64.ofNat (input.toNat % 2 ^ f.arity)) = f.eval input := by
  rw [← Word.toNat_low, UInt64.ofNat_toNat, eval_low]

end NormalForm

theorem Monomial.support_ne_nil {m : Monomial} (h : m ≠ 0) : Monomial.support m ≠ [] := by
  intro hs
  have hfold := Monomial.foldl_support m
  rw [hs] at hfold
  exact h hfold.symm

/-- The terms of a normal form: distinct monomials in the variables there are, of which a monomial
has bits to spare. -/
structure Terms.Bounded (t : Terms) : Prop where
  arity_pos : 0 < t.arity
  arity_le : t.arity ≤ 63
  increasing : t.monomials.Pairwise (· < ·)
  monomial_lt : ∀ m ∈ t.monomials, m.toNat < 2 ^ t.arity

theorem NormalForm.bounded_terms (f : NormalForm) : f.terms.Bounded :=
  ⟨f.arity_pos, f.arity_le, f.polynomial.increasing, f.within⟩

/-- A monomial other than the constant one is printed as a product of some of the variables there
are. -/
theorem Terms.Bounded.exists_variables {t : Terms} (h : t.Bounded) {m : Monomial}
    (hm : m ∈ t.monomials) (hne : m ≠ 0) (numbering : Numbering) :
    ∃ is : List Nat, is ≠ [] ∧ (∀ i ∈ is, i < t.arity) ∧
      Monomial.text numbering m = " ".intercalate (is.map fun i => s!"x{numbering.first + i}") ∧
      Terms.checkedMonomialText numbering t.arity m = .ok (Monomial.text numbering m) := by
  have hlt := h.monomial_lt m hm
  refine ⟨Monomial.support m, Monomial.support_ne_nil hne, ?_, ?_, ?_⟩
  · intro i hi
    exact Word.lt_of_bit hlt (List.mem_filter.1 hi).2
  · rw [Monomial.text, if_neg hne]
  · exact checkedMonomialText_eq numbering (Nat.le_succ_of_le h.arity_le) hlt

inductive Construction where
  | zero (arity : Nat)
  | one (arity : Nat)
  | ofVariable (arity i : Nat)
  | ofMonomials (arity : Nat) (ms : List Monomial)
  | parse (arity : Nat) (numbering : Numbering) (s : String)
  | ofTable (t : TruthTable)
  | apply (op : NormalForm.Operator) (c d : Construction)
  | assign (op : NormalForm.Operator) (c d : Construction)

namespace Construction

variable (transform : Nat → UInt64 → UInt64)

/-- The normal form. An operator in place leaves its first operand also where it fails. -/
def form : Construction → Except Error NormalForm
  | zero arity => NormalForm.zero arity
  | one arity => NormalForm.one arity
  | ofVariable arity i => NormalForm.ofVariable arity i
  | ofMonomials arity ms => NormalForm.ofMonomials arity ms
  | parse arity numbering s => NormalForm.parse arity numbering s
  | ofTable t => .ok (t.normalFormBy transform)
  | apply op c d => do op.apply (← c.form) (← d.form)
  | assign op c d => do return (op.assign (← c.form) (← d.form)).2

def terms : Construction → Checked Terms
  | zero arity => Terms.zero arity
  | one arity => Terms.one arity
  | ofVariable arity i => Terms.ofVariable arity i
  | ofMonomials arity ms => Terms.ofMonomials arity ms
  | parse arity numbering s => Terms.parse arity numbering s
  | ofTable t => Terms.ofTable transform t
  | apply op c d => do op.checkedApply (← c.terms) (← d.terms)
  | assign op c d => do return (op.checkedAssign (← c.terms) (← d.terms)).2

/-- Terms are what the normal form consists of, or there is neither: an operator between different
numbers of variables is all that can stop the one with a fault, and then the other with its error. -/
def Follows (x : Checked Terms) (y : Except Error NormalForm) : Prop :=
  x = faultless (y.map NormalForm.terms) ∨ ∃ e, x = fault (.arityMismatch e) ∧ y = .error e

theorem Follows.bind {x : Checked Terms} {y : Except Error NormalForm}
    {k : Terms → Checked Terms} {l : NormalForm → Except Error NormalForm} (h : Follows x y)
    (hk : ∀ f, Follows (k f.terms) (l f)) : Follows (x >>= k) (y >>= l) := by
  obtain rfl | ⟨e, rfl, rfl⟩ := h
  · cases y with
    | error e => exact .inl rfl
    | ok f => exact hk f
  · exact .inr ⟨e, rfl, rfl⟩

theorem follows_apply (op : NormalForm.Operator) (f g : NormalForm) :
    Follows (op.checkedApply f.terms g.terms) (op.apply f g) := by
  by_cases h : g.arity = f.arity
  · exact .inl (op.checkedApply_of_eq h)
  · exact .inr ⟨op.mismatch, op.checkedApply_of_ne h, (op.checkedAssign_of_ne h).1⟩

/-- What is left of the first operand is a normal form even after a fault. -/
theorem checkedAssign_snd (op : NormalForm.Operator) (f g : NormalForm) :
    (op.checkedAssign f.terms g.terms).2 = (op.assign f g).2.terms := by
  by_cases h : g.arity = f.arity
  · obtain ⟨s, hs, hassign⟩ := op.checkedAssign_of_eq h
    rw [hassign, op.assign_eq, hs]
  · obtain ⟨he, hassign⟩ := op.checkedAssign_of_ne h
    rw [hassign, op.assign_eq, he]

theorem terms_follow (c : Construction) : Follows (c.terms transform) (c.form transform) := by
  induction c with
  | zero arity => exact .inl (Terms.zero_eq arity)
  | one arity => exact .inl (Terms.one_eq arity)
  | ofVariable arity i => exact .inl (Terms.ofVariable_eq arity i)
  | ofMonomials arity ms => exact .inl (Terms.ofMonomials_eq arity ms)
  | parse arity numbering s => exact .inl (Terms.parse_eq numbering arity s)
  | ofTable t => exact .inl (Terms.ofTable_eq transform t)
  | apply op c d ihc ihd => exact ihc.bind fun f => ihd.bind fun g => follows_apply op f g
  | assign op c d ihc ihd =>
    apply ihc.bind
    intro f
    apply ihd.bind
    intro g
    rw [checkedAssign_snd]
    exact .inl rfl

theorem exists_form {c : Construction} {t : Terms} (h : c.terms transform = .ok t) :
    ∃ f, c.form transform = .ok f ∧ f.terms = t := by
  obtain hc | ⟨e, hc, -⟩ := c.terms_follow transform
  · rw [hc] at h
    cases hf : c.form transform with
    | error e => rw [hf] at h; cases h
    | ok f =>
      rw [hf] at h
      exact ⟨f, rfl, Except.ok.inj h⟩
  · rw [hc] at h
    cases h

/-- However terms are put together, they are distinct monomials in the variables there are, so the
values depend on no further bit of an input and no monomial is printed as nothing. An operator fails
between different numbers of variables and nowhere else, and then leaves its first operand alone; to
the reader of expressions that never happens. -/
theorem constructions_bounded :
    (∀ (c : Construction) (t : Terms), c.terms transform = .ok t →
      t.Bounded ∧ t.monomials.length ≤ 2 ^ t.arity ∧
      (∀ m ∈ t.monomials, m ≠ 0 → ∀ numbering, ∃ is : List Nat, is ≠ [] ∧ (∀ i ∈ is, i < t.arity) ∧
        Monomial.text numbering m = " ".intercalate (is.map fun i => s!"x{numbering.first + i}") ∧
        Terms.checkedMonomialText numbering t.arity m = .ok (Monomial.text numbering m)) ∧
      ∃ f, c.form transform = .ok f ∧ f.terms = t ∧ f.degree ≤ t.arity ∧
        ∀ v : UInt64, f.eval (UInt64.ofNat (v.toNat % 2 ^ t.arity)) = f.eval v) ∧
    (∀ (op : NormalForm.Operator) (f g : NormalForm),
      (g.arity = f.arity → ∃ s, op.apply f g = .ok s ∧ op.assign f g = (.ok (), s) ∧
        op.checkedApply f.terms g.terms = .ok s.terms ∧
        op.checkedAssign f.terms g.terms = (.ok (), s.terms)) ∧
      (g.arity ≠ f.arity →
        op.apply f g = .error op.mismatch ∧ op.assign f g = (.error op.mismatch, f) ∧
        op.checkedApply f.terms g.terms = fault (.arityMismatch op.mismatch) ∧
        op.checkedAssign f.terms g.terms = (fault (.arityMismatch op.mismatch), f.terms))) ∧
    ∀ (arity : Nat) (numbering : Numbering) (s : String),
      Terms.parse arity numbering s =
        faultless ((NormalForm.parse arity numbering s).map NormalForm.terms) := by
  refine ⟨?_, ?_, fun arity numbering s => Terms.parse_eq numbering arity s⟩
  · intro c t h
    obtain ⟨f, hf, rfl⟩ := exists_form transform h
    have hbounded := f.bounded_terms
    exact ⟨hbounded, f.length_monomials_le, fun m hm hne => hbounded.exists_variables hm hne,
      f, hf, rfl, f.degree_le, f.eval_mod⟩
  · intro op f g
    constructor
    · intro h
      obtain ⟨s, hs, hassign⟩ := op.checkedAssign_of_eq h
      refine ⟨s, hs, ?_, ?_, hassign⟩
      · rw [op.assign_eq, hs]
      · rw [op.checkedApply_of_eq h, hs]
        rfl
    · intro h
      obtain ⟨he, hassign⟩ := op.checkedAssign_of_ne h
      refine ⟨he, ?_, op.checkedApply_of_ne h, hassign⟩
      rw [op.assign_eq, he]

/-- The product `(1 + x0) (x1 x2 + x0 x1)` made in place, and a sum with a variable out of four. -/
theorem constructions_bounded_example :
    ∃ c f g, c = assign .mul (apply .add (one 3) (ofVariable 3 0)) (ofMonomials 3 [0b110, 0b011]) ∧
      c.terms Moebius.transformWord = .ok ⟨3, [0b110, 0b111]⟩ ∧
      Terms.Bounded ⟨3, [0b110, 0b111]⟩ ∧ c.form Moebius.transformWord = .ok f ∧
      f.eval (UInt64.ofNat (0b1110 % 2 ^ (3 : Nat))) = f.eval 0b1110 ∧
      NormalForm.ofVariable 4 3 = .ok g ∧ g.arity ≠ f.arity ∧
      NormalForm.Operator.xor.assign f g = (.error .sumArityMismatch, f) := by
  obtain ⟨hbuilt, hoperators, -⟩ := constructions_bounded Moebius.transformWord
  let c := assign .mul (apply .add (one 3) (ofVariable 3 0)) (ofMonomials 3 [0b110, 0b011])
  have hc : c.terms Moebius.transformWord = .ok ⟨3, [0b110, 0b111]⟩ := rfl
  obtain ⟨hbounded, -, -, f, hf, hterms, -, heval⟩ := hbuilt c _ hc
  obtain ⟨g, hg, hga⟩ : ∃ g, NormalForm.ofVariable 4 3 = .ok g ∧ g.arity = 4 := ⟨_, rfl, rfl⟩
  have hfa : f.arity = 3 := congrArg Terms.arity hterms
  have hne : g.arity ≠ f.arity := by omega
  obtain ⟨-, hmismatch⟩ := hoperators .xor f g
  obtain ⟨-, hassign, -⟩ := hmismatch hne
  exact ⟨c, f, g, rfl, hc, hbounded, hf, heval 0b1110, hg, hne, hassign⟩

end Construction

end Keystream
