import Keystream.Error
import Keystream.Word

/-!
# Checked computations

The operations of this library rest on assumptions that hold for every argument: no word is shifted
by its width or more, no difference falls below zero, no sum wraps, no access lies outside of what it
reads. A checked computation tests such an assumption where it is made and stops with a fault where
it fails; a caller's error stops it as well, but is no fault. Memory is taken to be unbounded, and so
is the width to which a text is padded.
-/

namespace Keystream

inductive Fault where
  | shiftTooFar
  | underflow
  | overflow
  | outOfBounds
  | mixedStorage
  /-- A table was read behind its last output. -/
  | outsideTable
  /-- An operator was given normal forms in different numbers of variables. -/
  | arityMismatch (cause : Error)
  /-- A result breaks the form of its type. -/
  | malformed
  deriving DecidableEq

/-- What ends a computation early. -/
inductive Stop where
  | error (e : Error)
  | fault (f : Fault)

abbrev Checked := Except Stop

namespace Checked

variable {α β σ : Type}

def fail (e : Error) : Checked α :=
  .error (.error e)

def fault (f : Fault) : Checked α :=
  .error (.fault f)

/-- The computation that has this result and meets no fault. -/
def faultless : Except Error α → Checked α
  | .ok a => .ok a
  | .error e => fail e

/-- What the caller is told, if there is no fault. -/
def result : Checked α → Except Fault (Except Error α)
  | .ok a => .ok (.ok a)
  | .error (.error e) => .ok (.error e)
  | .error (.fault f) => .error f

@[simp] theorem pure_eq (a : α) : (pure a : Checked α) = .ok a := rfl

@[simp] theorem ok_bind (a : α) (f : α → Checked β) : (Except.ok a : Checked α) >>= f = f a := rfl

@[simp] theorem fail_bind (e : Error) (f : α → Checked β) : (fail e : Checked α) >>= f = fail e := rfl

@[simp] theorem fault_bind (e : Fault) (f : α → Checked β) :
    (fault e : Checked α) >>= f = fault e := rfl

@[simp] theorem faultless_ok (a : α) : faultless (.ok a) = .ok a := rfl

@[simp] theorem faultless_error (e : Error) : faultless (.error e : Except Error α) = fail e := rfl

@[simp] theorem result_faultless (x : Except Error α) : (faultless x).result = .ok x := by
  cases x <;> rfl

@[simp] theorem result_fault (f : Fault) : (fault f : Checked α).result = .error f := rfl

theorem faultless_bind (x : Except Error α) (f : α → Except Error β) :
    faultless (x >>= f) = faultless x >>= fun a => faultless (f a) := by
  cases x <;> rfl

theorem faultless_map (f : α → β) (x : Except Error α) :
    faultless (x.map f) = faultless x >>= fun a => .ok (f a) := by
  cases x <;> rfl

theorem mapM_eq {f : α → Checked β} {g : α → β} {l : List α} (h : ∀ a ∈ l, f a = .ok (g a)) :
    l.mapM f = .ok (l.map g) := by
  induction l with
  | nil => rfl
  | cons a l ih =>
    rw [List.mapM_cons, h a List.mem_cons_self, ih fun b hb => h b (List.mem_cons_of_mem a hb)]
    rfl

theorem filterM_eq {f : α → Checked Bool} {p : α → Bool} {l : List α} (h : ∀ a ∈ l, f a = .ok (p a)) :
    l.filterM f = .ok (l.filter p) := by
  have hloop : ∀ (r acc : List α), (∀ a ∈ r, f a = .ok (p a)) →
      r.filterAuxM f acc = .ok ((r.filter p).reverse ++ acc) := by
    intro r acc h
    induction r generalizing acc with
    | nil => rfl
    | cons a r ih =>
      rw [List.filterAuxM, h a List.mem_cons_self, ok_bind,
        ih _ fun b hb => h b (List.mem_cons_of_mem a hb), List.filter_cons]
      cases p a <;> simp
  rw [List.filterM, hloop l [] h]
  simp

theorem foldlM_eq {f : σ → α → Checked σ} {g : σ → α → σ} {l : List α}
    (h : ∀ s, ∀ a ∈ l, f s a = .ok (g s a)) (s : σ) : l.foldlM f s = .ok (l.foldl g s) := by
  induction l generalizing s with
  | nil => rfl
  | cons a l ih =>
    rw [List.foldlM_cons, h s a List.mem_cons_self]
    exact ih (fun s b hb => h s b (List.mem_cons_of_mem a hb)) (g s a)

/-- A loop that refuses the elements with some property and otherwise never fails. -/
theorem foldlM_guard {refused : α → Bool} {e : α → Error} {g : σ → α → σ} (l : List α) (s : σ) :
    l.foldlM (fun s a => if refused a then fail (e a) else .ok (g s a)) s =
      match l.find? refused with
      | some a => fail (e a)
      | none => .ok (l.foldl g s) := by
  induction l generalizing s with
  | nil => rfl
  | cons a l ih =>
    rw [List.foldlM_cons, List.find?_cons]
    cases h : refused a with
    | true => rfl
    | false => exact ih (g s a)

def sub (m n : Nat) : Checked Nat :=
  if n ≤ m then .ok (m - n) else fault .underflow

theorem sub_of_le {m n : Nat} (h : n ≤ m) : sub m n = .ok (m - n) :=
  if_pos h

/-- The sum of two numbers that are kept in words. -/
def add (m n : Nat) : Checked Nat :=
  if m + n < 2 ^ (64 : Nat) then .ok (m + n) else fault .overflow

theorem add_of_lt {m n : Nat} (h : m + n < 2 ^ (64 : Nat)) : add m n = .ok (m + n) :=
  if_pos h

def shiftLeft (w : UInt64) (i : Nat) : Checked UInt64 :=
  if i < 64 then .ok (w <<< UInt64.ofNat i) else fault .shiftTooFar

theorem shiftLeft_of_lt {i : Nat} (h : i < 64) (w : UInt64) :
    shiftLeft w i = .ok (w <<< UInt64.ofNat i) :=
  if_pos h

def shiftRight (w : UInt64) (i : Nat) : Checked UInt64 :=
  if i < 64 then .ok (w >>> UInt64.ofNat i) else fault .shiftTooFar

theorem shiftRight_of_lt {i : Nat} (h : i < 64) (w : UInt64) :
    shiftRight w i = .ok (w >>> UInt64.ofNat i) :=
  if_pos h

/-- Bit `i`, read by shifting it to the lowest place. -/
def wordBit (w : UInt64) (i : Nat) : Checked Bool := do
  return (← shiftRight w i) &&& 1 == 1

theorem wordBit_of_lt {i : Nat} (h : i < 64) (w : UInt64) : wordBit w i = .ok (Word.bit w i) := by
  have hbit : (w >>> UInt64.ofNat i &&& 1 == 1) = Word.bit w i := by
    rw [Bool.eq_iff_iff, beq_iff_eq, ← UInt64.toNat_inj, UInt64.toNat_and, Word.toNat_shiftRight w h,
      UInt64.toNat_one, Nat.and_one_is_mod, Word.bit, Nat.testBit_eq_decide_div_mod_eq,
      decide_eq_true_eq]
  simp only [wordBit, shiftRight_of_lt h, ok_bind, pure_eq, hbit]

theorem wordBit_of_le {i : Nat} (h : 64 ≤ i) (w : UInt64) : wordBit w i = fault .shiftTooFar := by
  simp only [wordBit, shiftRight, if_neg (Nat.not_lt.2 h), fault_bind]

/-- The word with the single bit `i`. -/
def single (i : Nat) : Checked UInt64 :=
  shiftLeft 1 i

theorem single_of_lt {i : Nat} (h : i < 64) : single i = .ok (Word.single i) :=
  shiftLeft_of_lt h 1

/-- How many inputs there are of `n` bits. -/
def size (n : Nat) : Checked Nat := do
  return (← single n).toNat

theorem size_of_lt {n : Nat} (h : n < 64) : size n = .ok (2 ^ n) := by
  simp only [size, single_of_lt h, ok_bind, pure_eq, Word.toNat_single h]

/-- The largest input of `n` bits. -/
def largest (n : Nat) : Checked Nat := do
  sub (← size n) 1

theorem largest_of_lt {n : Nat} (h : n < 64) : largest n = .ok (2 ^ n - 1) := by
  simp only [largest, size_of_lt h, ok_bind, sub_of_le (Nat.two_pow_pos n)]

/-- The word with ones exactly below position `length`. -/
def lowMask (length : Nat) : Checked UInt64 :=
  if 64 ≤ length then .ok 0xffffffffffffffff
  else do
    return UInt64.ofNat (← largest length)

theorem lowMask_eq (length : Nat) : lowMask length = .ok (Word.lowMask length) := by
  unfold lowMask Word.lowMask
  rcases Nat.lt_or_ge length 64 with h | h
  · have hle : (1 : UInt64) ≤ Word.single length := by
      rw [UInt64.le_iff_toNat_le, Word.toNat_single h]
      exact Nat.two_pow_pos length
    have hmask : UInt64.ofNat (2 ^ length - 1) = Word.single length - 1 := by
      rw [← UInt64.ofNat_toNat (x := Word.single length - 1), UInt64.toNat_sub_of_le _ _ hle,
        Word.toNat_single h, UInt64.toNat_one]
    rw [if_neg (Nat.not_le.2 h), if_pos h, largest_of_lt h, ok_bind, pure_eq, hmask]
  · rw [if_pos h, if_neg (Nat.not_lt.2 h)]

end Checked

end Keystream
