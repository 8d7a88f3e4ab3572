import Keystream.Proofs.Inversion
import Keystream.Proofs.Printing

/-!
# The two views of a function

A function has the values of its normal form at all inputs, whether they are looked up or computed,
and so has its truth table. Which views have been derived so far therefore never shows: calls made
on several functions in any order, clones included, are answered as by functions on which no call
has been made before.
-/

namespace Keystream

theorem BitVector.lowWord_lt (x : BitVector) : x.lowWord.toNat < 2 ^ x.length := by
  have hx := x.value_lt
  unfold lowWord
  cases h : x.storage with
  | word w =>
    rw [h] at hx
    exact hx
  | wide v =>
    rw [h] at hx
    change (UInt64.ofNat v).toNat < 2 ^ x.length
    rw [UInt64.toNat_ofNat']
    exact Nat.lt_of_le_of_lt (Nat.mod_le _ _) hx

theorem BitVector.lowWord_ofWord {length : Nat} (h : length ≤ 64) (w : UInt64) :
    (ofWord length w).lowWord = Word.low length w := by
  simp only [lowWord, ofWord, if_pos h]

/-- All transforms of words that small tables may use give the same normal form. -/
theorem TruthTable.normalFormBy_eq_normalForm {transform : Nat → UInt64 → UInt64}
    (htransform : Moebius.TransformsWords transform) (t : TruthTable) :
    t.normalFormBy transform = t.normalForm := by
  apply normalFormBy_eq htransform rfl
  intro x hx
  exact (t.eval_normalFormBy Moebius.transformsWords_transformWord hx).symm

theorem TruthTable.lookup_eq_eval (t : TruthTable) {v : UInt64} (hv : v.toNat < 2 ^ t.arity) :
    t.lookup v.toNat = t.normalForm.eval v := by
  have heval := t.eval_normalFormBy Moebius.transformsWords_transformWord hv
  rw [UInt64.ofNat_toNat] at heval
  exact heval.symm

namespace NormalForm

theorem table_eq_error_iff {f : NormalForm} {e : Error} :
    f.table = .error e ↔ 31 < f.arity ∧ e = .tooManyVariables 31 := by
  rcases Nat.lt_or_ge 31 f.arity with hlt | hle
  · rw [table, TruthTable.tabulate_of_lt hlt, Except.error.injEq, eq_comm]
    exact (and_iff_right hlt).symm
  · obtain ⟨t, ht, -⟩ := exists_table hle
    rw [ht]
    exact iff_of_false nofun fun h => Nat.not_lt.2 hle h.1

theorem lookup_of_table {f : NormalForm} {t : TruthTable} (h : f.table = .ok t) :
    t.arity = f.arity ∧ ∀ v : UInt64, v.toNat < 2 ^ f.arity → t.lookup v.toNat = f.eval v := by
  have hle : f.arity ≤ 31 := by
    apply Nat.le_of_not_lt
    intro hlt
    rw [table_eq_error_iff.2 ⟨hlt, rfl⟩] at h
    cases h
  obtain ⟨t', ht', ha, -, hvalues⟩ := exists_table hle
  obtain rfl : t' = t := Except.ok.inj (ht'.symm.trans h)
  refine ⟨ha, ?_⟩
  intro v hv
  rw [hvalues _ hv, UInt64.ofNat_toNat]

end NormalForm

namespace BooleanFunction

theorem arity_le (f : BooleanFunction) : f.arity ≤ 63 := by
  rw [← f.arity_normalForm]
  exact f.normalForm.1.arity_le

/-- The normal form of what the function was made from, by any transform of words. -/
def formBy (transform : Nat → UInt64 → UInt64) : BooleanFunction → NormalForm
  | sparse form _ _ => form
  | dense table _ _ => table.normalFormBy transform

theorem formBy_eq {transform : Nat → UInt64 → UInt64}
    (htransform : Moebius.TransformsWords transform) (f : BooleanFunction) :
    f.formBy transform = f.normalForm.1 := by
  match f with
  | sparse form table h => rfl
  | dense table none h => exact table.normalFormBy_eq_normalForm htransform
  | dense table (some form) h =>
    exact (table.normalFormBy_eq_normalForm htransform).trans (h form rfl)

theorem value_eq (f : BooleanFunction) {v : UInt64} (hv : v.toNat < 2 ^ f.arity) :
    f.value v = f.normalForm.1.eval v := by
  match f with
  | sparse form (some table) h => exact (NormalForm.lookup_of_table (h table rfl)).2 v hv
  | sparse form none h => rfl
  | dense table none h => exact table.lookup_eq_eval hv
  | dense table (some form) h =>
    obtain rfl := h form rfl
    exact table.lookup_eq_eval hv

theorem evalWord_eq (f : BooleanFunction) (a : UInt64) : f.evalWord a = f.normalForm.1.eval a := by
  rw [evalWord, f.value_eq (Word.toNat_low_lt f.arity a), ← f.arity_normalForm, NormalForm.eval_low]

theorem eval_ofWord (f : BooleanFunction) (a : UInt64) :
    f.eval (.ofWord f.arity a) = .ok (f.evalWord a) := by
  rw [eval, if_pos (BitVector.length_ofWord f.arity a),
    BitVector.lowWord_ofWord (Nat.le_succ_of_le f.arity_le), evalWord]

/-- The function as it was made, without the view derived since. -/
def fresh : BooleanFunction → BooleanFunction
  | sparse form _ _ => ofForm form
  | dense table _ _ => ofTable table

@[simp] theorem arity_fresh (f : BooleanFunction) : f.fresh.arity = f.arity := by
  cases f <;> rfl

@[simp] theorem normalForm_fresh (f : BooleanFunction) :
    f.fresh.normalForm.1 = f.normalForm.1 := by
  match f with
  | sparse form table h => rfl
  | dense table none h => rfl
  | dense table (some form) h => exact h form rfl

@[simp] theorem fresh_normalForm (f : BooleanFunction) : f.normalForm.2.fresh = f.fresh := by
  match f with
  | sparse form table h => rfl
  | dense table none h => rfl
  | dense table (some form) h => rfl

theorem truthTable_sparse (form : NormalForm) (table : Option TruthTable)
    (h : ∀ t, table = some t → form.table = .ok t) :
    (sparse form table h).truthTable.1 = form.table ∧
      (sparse form table h).truthTable.2.fresh = ofForm form ∧
      ∀ e, form.table = .error e → (sparse form table h).truthTable.2 = sparse form table h := by
  cases table with
  | some t =>
    refine ⟨(h t rfl).symm, rfl, ?_⟩
    intro e he
    rw [h t rfl] at he
    cases he
  | none =>
    rw [truthTable]
    split
    · next ht => exact ⟨ht.symm, rfl, fun _ _ => rfl⟩
    · next t ht =>
      refine ⟨ht.symm, rfl, ?_⟩
      intro e he
      rw [ht] at he
      cases he

@[simp] theorem truthTable_fresh (f : BooleanFunction) :
    f.fresh.truthTable.1 = f.truthTable.1 := by
  cases f with
  | sparse form table h =>
    have hfresh := truthTable_sparse form none (by rintro _ ⟨⟩)
    exact hfresh.1.trans (truthTable_sparse form table h).1.symm
  | dense table form h => rfl

@[simp] theorem fresh_truthTable (f : BooleanFunction) : f.truthTable.2.fresh = f.fresh := by
  cases f with
  | sparse form table h => exact (truthTable_sparse form table h).2.1
  | dense table form h => rfl

theorem lookup_of_truthTable {f : BooleanFunction} {t : TruthTable} (h : f.truthTable.1 = .ok t) :
    t.arity = f.arity ∧
      ∀ v : UInt64, v.toNat < 2 ^ f.arity → t.lookup v.toNat = f.normalForm.1.eval v := by
  cases f with
  | sparse form table ht =>
    rw [(truthTable_sparse form table ht).1] at h
    exact NormalForm.lookup_of_table h
  | dense table form hf =>
    obtain rfl : table = t := Except.ok.inj h
    refine ⟨rfl, ?_⟩
    intro v hv
    rw [← normalForm_fresh]
    exact table.lookup_eq_eval hv

theorem output_of_truthTable {f : BooleanFunction} {t : TruthTable} (h : f.truthTable.1 = .ok t)
    (a : UInt64) : t.output (a.toNat % 2 ^ f.arity) = .ok (f.evalWord a) := by
  obtain ⟨ha, hvalues⟩ := lookup_of_truthTable h
  have hlow := Word.toNat_low_lt f.arity a
  rw [← Word.toNat_low, t.output_of_lt (ha ▸ hlow), hvalues _ hlow, evalWord, f.value_eq hlow]

theorem truthTable_eq_error_iff {f : BooleanFunction} {e : Error} :
    f.truthTable.1 = .error e ↔
      (∃ form, f.fresh = ofForm form ∧ 31 < form.arity) ∧ e = .tooManyVariables 31 := by
  cases f with
  | sparse form table h =>
    rw [(truthTable_sparse form table h).1, NormalForm.table_eq_error_iff]
    constructor
    · rintro ⟨hlt, he⟩
      exact ⟨⟨form, rfl, hlt⟩, he⟩
    · rintro ⟨⟨form', hform, hlt⟩, he⟩
      cases hform
      exact ⟨hlt, he⟩
  | dense table form h => exact iff_of_false nofun fun hmade => nomatch hmade.1

theorem truthTable_of_error {f : BooleanFunction} {e : Error} (h : f.truthTable.1 = .error e) :
    f.truthTable.2 = f := by
  cases f with
  | sparse form table ht =>
    obtain ⟨hfst, -, hsnd⟩ := truthTable_sparse form table ht
    exact hsnd e (hfst.symm.trans h)
  | dense table form hf => cases h

theorem value_fresh (f : BooleanFunction) {v : UInt64} (hv : v.toNat < 2 ^ f.arity) :
    f.fresh.value v = f.value v := by
  rw [f.value_eq hv, f.fresh.value_eq (f.arity_fresh.symm ▸ hv), normalForm_fresh]

@[simp] theorem evalWord_fresh (f : BooleanFunction) (a : UInt64) :
    f.fresh.evalWord a = f.evalWord a := by
  rw [evalWord_eq, evalWord_eq, normalForm_fresh]

@[simp] theorem eval_fresh (f : BooleanFunction) (x : BitVector) : f.fresh.eval x = f.eval x := by
  unfold eval
  rw [arity_fresh]
  split
  · next h => rw [f.value_fresh (h ▸ x.lowWord_lt)]
  · rfl

theorem equal_iff (f g : BooleanFunction) :
    (f.equal g).1 = true ↔ f.normalForm.1 = g.normalForm.1 := by
  unfold equal
  split
  · exact decide_eq_true_iff
  · next h =>
    refine iff_of_false Bool.false_ne_true fun he => h ?_
    rw [← f.arity_normalForm, ← g.arity_normalForm, he]

@[simp] theorem equal_fresh (f g : BooleanFunction) :
    (f.fresh.equal g.fresh).1 = (f.equal g).1 := by
  rw [Bool.eq_iff_iff, equal_iff, equal_iff, normalForm_fresh, normalForm_fresh]

theorem fresh_equal (f g : BooleanFunction) :
    (f.equal g).2.1.fresh = f.fresh ∧ (f.equal g).2.2.fresh = g.fresh := by
  unfold equal
  split
  · exact ⟨f.fresh_normalForm, g.fresh_normalForm⟩
  · exact ⟨rfl, rfl⟩

@[simp] theorem text_fresh (f : BooleanFunction) : f.fresh.text.1 = f.text.1 :=
  congrArg (NormalForm.text .fromZero) f.normalForm_fresh

@[simp] theorem fresh_text (f : BooleanFunction) : f.text.2.fresh = f.fresh :=
  f.fresh_normalForm

end BooleanFunction

end Keystream
