import Keystream.Word

/-!
# Polynomials over two elements

A monomial is a set of variables, kept as a word whose bit `i` says whether variable `i` is in it;
the empty set is the constant one. A polynomial is a set of monomials, kept as an increasing list.
Adding a monomial that is there removes it, and multiplying two monomials joins their variables,
since a variable is its own square.
-/

namespace Keystream

abbrev Monomial := UInt64

namespace Monomial

def ofVariable (i : Nat) : Monomial :=
  Word.single i

/-- How many variables occur. -/
def degree (m : Monomial) : Nat :=
  Word.ones m

/-- Whether every variable of `m` is one in the input. -/
def holdsAt (m : Monomial) (input : UInt64) : Bool :=
  input &&& m == m

/-- The variables in increasing order, of which there are fewer than 64. -/
def support (m : Monomial) : List Nat :=
  (List.range 64).filter (Word.bit m)

/-- The increasing list with `m` taken out if it was there and put in otherwise. -/
def toggleIn (m : Monomial) : List Monomial → List Monomial
  | [] => [m]
  | a :: l => if m < a then m :: a :: l else if m = a then l else a :: toggleIn m l

theorem mem_of_mem_toggleIn {m x : Monomial} {l : List Monomial} (h : x ∈ toggleIn m l) :
    x = m ∨ x ∈ l := by
  induction l with
  | nil => exact .inl (List.mem_singleton.1 h)
  | cons a l ih =>
    rw [toggleIn] at h
    split at h
    · exact List.mem_cons.1 h
    · split at h
      · exact .inr (List.mem_cons_of_mem a h)
      · rcases List.mem_cons.1 h with h | h
        · exact .inr (h ▸ List.mem_cons_self)
        · exact (ih h).imp_right (List.mem_cons_of_mem a)

theorem pairwise_toggleIn (m : Monomial) {l : List Monomial} (hl : l.Pairwise (· < ·)) :
    (toggleIn m l).Pairwise (· < ·) := by
  induction l with
  | nil => exact List.pairwise_singleton _ _
  | cons a l ih =>
    have ha := (List.pairwise_cons.1 hl).1
    have hl' := (List.pairwise_cons.1 hl).2
    rw [toggleIn]
    split
    · next hm =>
      apply List.pairwise_cons.2 ⟨_, hl⟩
      intro x hx
      rcases List.mem_cons.1 hx with rfl | hx
      · exact hm
      · exact UInt64.lt_trans hm (ha x hx)
    · next hm =>
      split
      · exact hl'
      · next he =>
        have hne : m.toNat ≠ a.toNat := fun e => he (UInt64.toNat_inj.1 e)
        rw [UInt64.lt_iff_toNat_lt] at hm
        have ham : a < m := UInt64.lt_iff_toNat_lt.2 (by omega)
        apply List.pairwise_cons.2 ⟨_, ih hl'⟩
        intro x hx
        rcases mem_of_mem_toggleIn hx with rfl | hx
        · exact ham
        · exact ha x hx

end Monomial

structure Polynomial where
  monomials : List Monomial
  increasing : monomials.Pairwise (· < ·)
  deriving DecidableEq

namespace Polynomial

instance : Zero Polynomial := ⟨⟨[], .nil⟩⟩

instance : One Polynomial := ⟨⟨[0], List.pairwise_singleton _ _⟩⟩

def toggle (m : Monomial) (p : Polynomial) : Polynomial :=
  ⟨Monomial.toggleIn m p.monomials, Monomial.pairwise_toggleIn m p.increasing⟩

/-- The sum of the monomials of a list, in which even repetitions cancel. -/
def ofMonomials (ms : List Monomial) : Polynomial :=
  ms.foldr toggle 0

instance : Add Polynomial := ⟨fun p q => p.monomials.foldr toggle q⟩

/-- The polynomial whose monomials are joined with `m` one by one, added to `q`. -/
def addMultiple (m : Monomial) (p q : Polynomial) : Polynomial :=
  p.monomials.foldr (fun r s => s.toggle (m ||| r)) q

instance : Mul Polynomial := ⟨fun p q => p.monomials.foldr (fun m s => addMultiple m q s) 0⟩

/-- The value at an input: how many monomials hold there, modulo two. -/
def eval (p : Polynomial) (input : UInt64) : Bool :=
  p.monomials.countP (Monomial.holdsAt · input) % 2 == 1

/-- The largest degree of a monomial, and zero if there is none. -/
def degree (p : Polynomial) : Nat :=
  p.monomials.foldr (fun m d => max (Monomial.degree m) d) 0

/-- Whether all monomials have their variables among the first `n`. -/
def Within (n : Nat) (p : Polynomial) : Prop :=
  ∀ m ∈ p.monomials, m.toNat < 2 ^ n

theorem within_zero (n : Nat) : Within n 0 :=
  fun _ h => nomatch h

theorem within_one (n : Nat) : Within n 1 := by
  intro m h
  rw [List.mem_singleton.1 h]
  exact Nat.two_pow_pos n

theorem Within.toggle {n : Nat} {m : Monomial} {p : Polynomial} (hp : p.Within n)
    (hm : m.toNat < 2 ^ n) : (p.toggle m).Within n := by
  intro x hx
  rcases Monomial.mem_of_mem_toggleIn hx with rfl | hx
  · exact hm
  · exact hp x hx

theorem within_foldr_toggle {n : Nat} {ms : List Monomial} {q : Polynomial}
    (hms : ∀ m ∈ ms, m.toNat < 2 ^ n) (hq : q.Within n) :
    Within n (ms.foldr Polynomial.toggle q) := by
  induction ms with
  | nil => exact hq
  | cons m ms ih =>
    exact (ih fun x hx => hms x (List.mem_cons_of_mem m hx)).toggle (hms m List.mem_cons_self)

theorem within_ofMonomials {n : Nat} {ms : List Monomial} (h : ∀ m ∈ ms, m.toNat < 2 ^ n) :
    (ofMonomials ms).Within n :=
  within_foldr_toggle h (within_zero n)

theorem within_ofVariable {n i : Nat} (hn : n ≤ 64) (hi : i < n) :
    (ofMonomials [.ofVariable i]).Within n := by
  apply within_ofMonomials
  intro m h
  rw [List.mem_singleton.1 h, Monomial.ofVariable, Word.toNat_single (by omega)]
  exact Nat.pow_lt_pow_right (by decide) hi

theorem Within.add {n : Nat} {p q : Polynomial} (hp : p.Within n) (hq : q.Within n) :
    (p + q).Within n :=
  within_foldr_toggle hp hq

theorem within_addMultiple {n : Nat} {m : Monomial} {p q : Polynomial} (hm : m.toNat < 2 ^ n)
    (hp : p.Within n) (hq : q.Within n) : (addMultiple m p q).Within n := by
  unfold addMultiple
  unfold Within at hp
  generalize p.monomials = ms at hp
  induction ms with
  | nil => exact hq
  | cons r ms ih =>
    apply (ih fun x hx => hp x (List.mem_cons_of_mem r hx)).toggle
    rw [UInt64.toNat_or]
    exact Nat.or_lt_two_pow hm (hp r List.mem_cons_self)

theorem Within.mul {n : Nat} {p q : Polynomial} (hp : p.Within n) (hq : q.Within n) :
    (p * q).Within n := by
  change Within n (p.monomials.foldr (fun m s => addMultiple m q s) 0)
  unfold Within at hp
  generalize p.monomials = ms at hp
  induction ms with
  | nil => exact within_zero n
  | cons m ms ih =>
    exact within_addMultiple (hp m List.mem_cons_self) hq
      (ih fun x hx => hp x (List.mem_cons_of_mem m hx))

end Polynomial

end Keystream
