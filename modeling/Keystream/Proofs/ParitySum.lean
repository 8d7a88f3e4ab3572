/-!
# Sums modulo two over lists

`paritySum l φ` adds the bits `φ a` over the entries of a list. It is linear in `φ` and does not
depend on the order of the list, so values and coefficients of polynomials, parities of words and
subset sums of tables are all read off it.
-/

namespace Keystream

variable {α β : Type}

def paritySum (l : List α) (φ : α → Bool) : Bool :=
  l.foldr (fun a b => φ a ^^ b) false

@[simp] theorem paritySum_nil (φ : α → Bool) : paritySum [] φ = false := rfl

@[simp] theorem paritySum_cons (a : α) (l : List α) (φ : α → Bool) :
    paritySum (a :: l) φ = (φ a ^^ paritySum l φ) := rfl

theorem paritySum_append (l r : List α) (φ : α → Bool) :
    paritySum (l ++ r) φ = (paritySum l φ ^^ paritySum r φ) := by
  induction l with
  | nil => exact (Bool.false_xor _).symm
  | cons a l ih => rw [List.cons_append, paritySum_cons, paritySum_cons, ih, Bool.xor_assoc]

theorem paritySum_map (f : β → α) (l : List β) (φ : α → Bool) :
    paritySum (l.map f) φ = paritySum l fun b => φ (f b) := by
  induction l with
  | nil => rfl
  | cons b l ih => rw [List.map_cons, paritySum_cons, paritySum_cons, ih]

theorem paritySum_congr {l : List α} {φ ψ : α → Bool} (h : ∀ a ∈ l, φ a = ψ a) :
    paritySum l φ = paritySum l ψ := by
  induction l with
  | nil => rfl
  | cons a l ih =>
    have hl := ih fun b hb => h b (List.mem_cons_of_mem a hb)
    rw [paritySum_cons, paritySum_cons, h a List.mem_cons_self, hl]

@[simp] theorem paritySum_false (l : List α) : paritySum l (fun _ => false) = false := by
  induction l with
  | nil => rfl
  | cons a l ih => rw [paritySum_cons, ih, Bool.false_xor]

theorem exists_of_paritySum {l : List α} {φ : α → Bool} (h : paritySum l φ = true) :
    ∃ a ∈ l, φ a = true := by
  induction l with
  | nil => exact absurd h Bool.false_ne_true
  | cons a l ih =>
    cases ha : φ a with
    | true => exact ⟨a, List.mem_cons_self, ha⟩
    | false =>
      rw [paritySum_cons, ha, Bool.false_xor] at h
      obtain ⟨b, hb, hφ⟩ := ih h
      exact ⟨b, List.mem_cons_of_mem a hb, hφ⟩

theorem paritySum_xor (l : List α) (φ ψ : α → Bool) :
    paritySum l (fun a => φ a ^^ ψ a) = (paritySum l φ ^^ paritySum l ψ) := by
  induction l with
  | nil => rfl
  | cons a l ih =>
    simp only [paritySum_cons, ih, Bool.xor_assoc, Bool.xor_left_comm]

theorem paritySum_and_left (b : Bool) (l : List α) (φ : α → Bool) :
    paritySum l (fun a => b && φ a) = (b && paritySum l φ) := by
  cases b with
  | false => simp only [Bool.false_and, paritySum_false]
  | true => simp only [Bool.true_and]

theorem paritySum_and_right (b : Bool) (l : List α) (φ : α → Bool) :
    paritySum l (fun a => φ a && b) = (paritySum l φ && b) := by
  simp only [Bool.and_comm _ b, paritySum_and_left]

theorem paritySum_filter (p : α → Bool) (l : List α) (φ : α → Bool) :
    paritySum (l.filter p) φ = paritySum l fun a => p a && φ a := by
  induction l with
  | nil => rfl
  | cons a l ih =>
    rw [List.filter_cons, paritySum_cons, ← ih]
    cases p a with
    | false => rw [Bool.false_and, Bool.false_xor, if_neg Bool.false_ne_true]
    | true => rw [Bool.true_and, if_pos rfl, paritySum_cons]

theorem paritySum_perm {l r : List α} (h : l.Perm r) (φ : α → Bool) :
    paritySum l φ = paritySum r φ := by
  induction h with
  | nil => rfl
  | cons a _ ih => rw [paritySum_cons, paritySum_cons, ih]
  | swap a b l => simp only [paritySum_cons, Bool.xor_left_comm]
  | trans _ _ hl hr => exact hl.trans hr

theorem paritySum_eq_countP (l : List α) (φ : α → Bool) :
    paritySum l φ = (l.countP φ % 2 == 1) := by
  induction l with
  | nil => rfl
  | cons a l ih =>
    rw [paritySum_cons, ih, List.countP_cons]
    rcases Nat.mod_two_eq_zero_or_one (l.countP φ) with h | h <;> cases φ a <;>
      simp [h, Nat.add_mod]

/-- In a list without repetitions, the entries equal to `a` add up to whether `a` is there. -/
theorem paritySum_eq_mem [DecidableEq α] {l : List α} (hl : l.Nodup) (a : α) :
    paritySum l (fun b => decide (b = a)) = decide (a ∈ l) := by
  induction l with
  | nil => rfl
  | cons b l ih =>
    obtain ⟨hb, hl⟩ := List.nodup_cons.1 hl
    rw [paritySum_cons, ih hl]
    by_cases h : b = a
    · subst h
      simp [hb]
    · have hne : ¬ a = b := fun e => h e.symm
      simp [h, hne]

end Keystream
