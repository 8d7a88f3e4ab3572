import Keystream.Proofs.Runs
import Keystream.Proofs.Views

/-!
# Calls on functions

A program holds several functions and makes calls on them one after another; each call may leave a
derived view behind, and a clone takes over the views of its source. The answers are those of
functions without derived views: one call answers alike with and without them, and it leaves
functions that were made from the same form or table.
-/

namespace Keystream.BooleanFunction

variable {k : Nat}

theorem getElem_map_fresh (fs : Vector BooleanFunction k) (i : Fin k) :
    (fs.map fresh)[i] = fs[i].fresh :=
  Vector.getElem_map fresh i.isLt

/-- A call on one of `k` functions, or on two of them. -/
inductive Call (k : Nat) where
  | truthTable (i : Fin k)
  | normalForm (i : Fin k)
  | evalWord (i : Fin k) (input : UInt64)
  | eval (i : Fin k) (input : BitVector)
  | equal (i j : Fin k)
  | text (i : Fin k)
  | clone (source target : Fin k)

inductive Answer where
  | table (result : Except Error TruthTable)
  | form (form : NormalForm)
  | bit (b : Bool)
  | checkedBit (result : Except Error Bool)
  | text (s : String)
  | done

namespace Call

/-- The answer, and all functions after the call. A clone replaces the function `target`. -/
def perform : Call k → Vector BooleanFunction k → Answer × Vector BooleanFunction k
  | truthTable i, fs =>
    let (t, f) := fs[i].truthTable
    (.table t, fs.set i f)
  | normalForm i, fs =>
    let (form, f) := fs[i].normalForm
    (.form form, fs.set i f)
  | evalWord i input, fs => (.bit (fs[i].evalWord input), fs)
  | eval i input, fs => (.checkedBit (fs[i].eval input), fs)
  | equal i j, fs =>
    let (b, f, g) := fs[i].equal fs[j]
    (.bit b, (fs.set i f).set j g)
  | text i, fs =>
    let (s, f) := fs[i].text
    (.text s, fs.set i f)
  | clone source target, fs => (.done, fs.set target fs[source])

/-- The functions after a call that keeps no derived view. -/
def assign : Call k → Vector BooleanFunction k → Vector BooleanFunction k
  | clone source target, fs => fs.set target fs[source]
  | _, fs => fs

/-- The answer, and the functions as if no view were kept. -/
def performFresh (c : Call k) (fs : Vector BooleanFunction k) :
    Answer × Vector BooleanFunction k :=
  ((c.perform fs).1, c.assign fs)

end Call

theorem map_fresh_set (fs : Vector BooleanFunction k) (i : Fin k) {f : BooleanFunction}
    (h : f.fresh = fs[i].fresh) : (fs.set i f).map fresh = fs.map fresh := by
  rw [Vector.map_set, h, ← getElem_map_fresh]
  exact Vector.set_getElem_self i.isLt

/-- A call answers alike on the functions as they were made, and leaves them as they were made. -/
theorem performFresh_map_fresh (c : Call k) (fs : Vector BooleanFunction k) :
    c.performFresh (fs.map fresh) = ((c.perform fs).1, (c.perform fs).2.map fresh) := by
  suffices h : (c.perform (fs.map fresh)).1 = (c.perform fs).1 ∧
      (c.perform fs).2.map fresh = c.assign (fs.map fresh) by
    rw [Call.performFresh, h.1, h.2]
  cases c with
  | truthTable i =>
    refine ⟨?_, map_fresh_set fs i fs[i].fresh_truthTable⟩
    simp only [Call.perform, getElem_map_fresh, truthTable_fresh]
  | normalForm i =>
    refine ⟨?_, map_fresh_set fs i fs[i].fresh_normalForm⟩
    simp only [Call.perform, getElem_map_fresh, normalForm_fresh]
  | evalWord i input =>
    refine ⟨?_, rfl⟩
    simp only [Call.perform, getElem_map_fresh, evalWord_fresh]
  | eval i input =>
    refine ⟨?_, rfl⟩
    simp only [Call.perform, getElem_map_fresh, eval_fresh]
  | equal i j =>
    obtain ⟨hf, hg⟩ := fresh_equal fs[i] fs[j]
    constructor
    · simp only [Call.perform, getElem_map_fresh, equal_fresh]
    · change ((fs.set i (fs[i].equal fs[j]).2.1).set j (fs[i].equal fs[j]).2.2).map fresh = _
      -- `j` may be `i`: the second view goes back among functions that already hold the first.
      have hi := map_fresh_set fs i hf
      have hj : fresh (fs.set i (fs[i].equal fs[j]).2.1)[j] = fs[j].fresh := by
        rw [← getElem_map_fresh, ← getElem_map_fresh, hi]
      rw [map_fresh_set _ j (hg.trans hj.symm), hi]
      rfl
  | text i =>
    refine ⟨?_, map_fresh_set fs i fs[i].fresh_text⟩
    simp only [Call.perform, getElem_map_fresh, text_fresh]
  | clone source target =>
    refine ⟨rfl, ?_⟩
    change (fs.set target fs[source]).map fresh = (fs.map fresh).set target (fs.map fresh)[source]
    rw [Vector.map_set, getElem_map_fresh]

/-- Calls in any order are answered as if no view were kept, each like a first call; all ways to ask
for a value agree, also with the truth table, which is missing exactly for the functions made
from forms of more than 31 variables. -/
theorem history_independent {transform : Nat → UInt64 → UInt64}
    (htransform : Moebius.TransformsWords transform) :
    (∀ (k : Nat) (calls : List (Call k)) (fs : Vector BooleanFunction k),
      performAll Call.performFresh calls (fs.map fresh) =
        ((performAll Call.perform calls fs).1,
          (performAll Call.perform calls fs).2.map fresh)) ∧
    ∀ f : BooleanFunction,
      f.normalForm.1 = f.formBy transform ∧
      (∀ a : UInt64, f.evalWord a = f.normalForm.1.eval a ∧
        f.eval (.ofWord f.arity a) = .ok (f.evalWord a)) ∧
      (∀ t, f.truthTable.1 = .ok t →
        ∀ a : UInt64, t.output (a.toNat % 2 ^ f.arity) = .ok (f.evalWord a)) ∧
      (∀ e, f.truthTable.1 = .error e ↔
        (∃ form, f.fresh = ofForm form ∧ 31 < form.arity) ∧ e = .tooManyVariables 31) ∧
      ∀ e, f.truthTable.1 = .error e → f.truthTable.2 = f := by
  refine ⟨fun k => performAll_view performFresh_map_fresh, ?_⟩
  intro f
  refine ⟨(f.formBy_eq htransform).symm, ?_, fun t => output_of_truthTable,
    fun e => truthTable_eq_error_iff, fun e => truthTable_of_error⟩
  intro a
  exact ⟨f.evalWord_eq a, f.eval_ofWord a⟩

theorem history_independent_example :
    Moebius.TransformsWords Moebius.transformWord ∧
    (∃ t, TruthTable.ofPacked 3 0x27 = .ok t ∧ (ofTable t).truthTable.1 = .ok t ∧
      (ofTable t).normalForm.1 = (ofTable t).formBy Moebius.transformWord ∧
      t.output (0b1101 % 2 ^ (ofTable t).arity) = .ok ((ofTable t).evalWord 0b1101)) ∧
    ∃ f, NormalForm.ofVariable 40 39 = .ok f ∧ 31 < f.arity ∧
      (ofForm f).truthTable.1 = .error (.tooManyVariables 31) ∧
      (ofForm f).truthTable.2 = ofForm f := by
  obtain ⟨-, hviews⟩ := history_independent Moebius.transformsWords_transformWord
  obtain ⟨t, ht⟩ : ∃ t, TruthTable.ofPacked 3 0x27 = .ok t := ⟨_, rfl⟩
  obtain ⟨f, hf, hlt⟩ : ∃ f, NormalForm.ofVariable 40 39 = .ok f ∧ 31 < f.arity :=
    ⟨_, rfl, by decide⟩
  obtain ⟨hform, -, houtput, -⟩ := hviews (ofTable t)
  obtain ⟨-, -, -, hfails, hkept⟩ := hviews (ofForm f)
  have herror := (hfails _).2 ⟨⟨f, rfl, hlt⟩, rfl⟩
  exact ⟨Moebius.transformsWords_transformWord, ⟨t, ht, rfl, hform, houtput t rfl 0b1101⟩,
    ⟨f, hf, hlt, herror, hkept _ herror⟩⟩

end Keystream.BooleanFunction
