import Keystream.NormalForm.Basic
import Keystream.TruthTable.Basic

/-!
# Normal forms and truth tables

`NormalForm.table` evaluates a normal form at every input. `TruthTable.normalForm` goes back by the
subset-sum transform, whose result has the coefficient of monomial `m` at position `m`. The transform
of words that small tables use may be any one, as in `TruthTable.normalFormBy`.
-/

namespace Keystream

/-- The polynomial in `n` variables whose coefficients are the bits of a number. -/
def Polynomial.ofCoefficients (n : Nat) (hn : n ≤ 64) (coefficients : Nat) : Polynomial where
  monomials := ((List.range (2 ^ n)).filter coefficients.testBit).map UInt64.ofNat
  increasing := by
    have hn : 2 ^ n ≤ 2 ^ 64 := Nat.pow_le_pow_right (by decide) hn
    apply List.pairwise_map.2
    have hr : (List.range (2 ^ n)).Pairwise fun i j => UInt64.ofNat i < UInt64.ofNat j := by
      apply List.Pairwise.imp_of_mem _ List.pairwise_lt_range
      intro i j hi hj hij
      have hi := List.mem_range.1 hi
      have hj := List.mem_range.1 hj
      rw [UInt64.lt_iff_toNat_lt, UInt64.toNat_ofNat', UInt64.toNat_ofNat',
        Nat.mod_eq_of_lt (by omega), Nat.mod_eq_of_lt (by omega)]
      exact hij
    exact hr.filter _

theorem Polynomial.within_ofCoefficients (n : Nat) (hn : n ≤ 64) (coefficients : Nat) :
    (ofCoefficients n hn coefficients).Within n := by
  intro m hm
  obtain ⟨j, hj, rfl⟩ := List.mem_map.1 hm
  rw [UInt64.toNat_ofNat']
  exact Nat.lt_of_le_of_lt (Nat.mod_le _ _) (List.mem_range.1 (List.mem_filter.1 hj).1)

/-- The values at all inputs, for at most 31 variables. -/
def NormalForm.table (f : NormalForm) : Except Error TruthTable :=
  TruthTable.tabulate f.arity fun x => f.eval (UInt64.ofNat x)

def TruthTable.normalFormBy (transform : Nat → UInt64 → UInt64) (t : TruthTable) : NormalForm where
  arity := t.arity
  polynomial :=
    .ofCoefficients t.arity (Nat.le_trans t.arity_le (by decide)) (t.coefficients transform)
  arity_range := ⟨t.arity_pos, Nat.le_trans t.arity_le (by decide)⟩
  within := Polynomial.within_ofCoefficients _ _ _

def TruthTable.normalForm (t : TruthTable) : NormalForm :=
  t.normalFormBy Moebius.transformWord

end Keystream
