import Keystream.Proofs.Layout
import Mathlib.Data.String.Basic

/-!
# Where lexemes begin

A text is cut in two where one of its lexemes begins. The lexemes before the cut are those of the
characters before it, whatever follows the first character of the next lexeme, and the lexeme stands
at the number of bytes before it.
-/

namespace Keystream

open String (utf8Len utf8Len_nil utf8Len_cons utf8Len_append)

theorem utf8Size_of_isDigit {d : Char} (h : d.isDigit = true) : d.utf8Size = 1 := by
  rw [Char.isDigit, Bool.and_eq_true, decide_eq_true_eq, decide_eq_true_eq] at h
  exact Char.utf8Size_eq_one_iff.2 (Nat.le_trans h.2 (by decide))

theorem utf8Len_digits {digits : List Char} (hd : ∀ d ∈ digits, d.isDigit = true) :
    utf8Len digits = digits.length := by
  induction digits with
  | nil => rfl
  | cons d digits ih =>
    rw [utf8Len_cons, ih fun c hc => hd c (List.mem_cons_of_mem d hc),
      utf8Size_of_isDigit (hd d List.mem_cons_self), List.length_cons]

theorem utf8Len_var {digits : List Char} (hd : ∀ d ∈ digits, d.isDigit = true) (cs : List Char)
    (position : Nat) :
    position + utf8Len ('x' :: (digits ++ cs)) = position + 1 + digits.length + utf8Len cs := by
  have hx : 'x'.utf8Size = 1 := rfl
  rw [utf8Len_cons, utf8Len_append, utf8Len_digits hd, hx]
  omega

theorem utf8Len_char (c : Char) (cs : List Char) (position : Nat) :
    position + utf8Len (c :: cs) = position + c.utf8Size + utf8Len cs := by
  rw [utf8Len_cons]
  omega

theorem head?_append_ne {p : Char → Bool} {cs ds : List Char} (hcs : ∀ c ∈ cs.head?, p c = false)
    (hds : ∀ c ∈ ds.head?, p c = false) : ∀ c ∈ (cs ++ ds).head?, p c = false := by
  cases cs with
  | nil => exact hds
  | cons c cs => exact hcs

/-- A text that does not go on with a digit keeps the lexemes it has. -/
theorem Layout.lexemes_append {ts : List Token} {cs ds : List Char} (h : Layout ts cs)
    (hds : ∀ c ∈ ds.head?, c.isDigit = false) (position : Nat) :
    lexemes position (cs ++ ds) = lexemes position cs ++ lexemes (position + utf8Len cs) ds := by
  induction h generalizing position with
  | done =>
    rw [lexemes]
    rfl
  | blank hc _ ih =>
    rw [List.cons_append, lexemes_blank position _ hc, lexemes_blank position _ hc, ih,
      utf8Len_char]
  | var hd hcs _ ih =>
    rw [List.cons_append, List.append_assoc, lexemes_var position hd (head?_append_ne hcs hds),
      lexemes_var position hd hcs, ih, utf8Len_var hd, List.cons_append]
  | char hc hx _ ih =>
    rw [List.cons_append, lexemes_char position _ hc hx, lexemes_char position _ hc hx, ih,
      utf8Len_char, List.cons_append]

/-- The lexeme begins with the first of these characters, at byte `position`. -/
inductive Begins (position : Nat) : Lexeme → List Char → Prop where
  | var {digits cs : List Char} (hd : ∀ d ∈ digits, d.isDigit = true)
      (hcs : ∀ c ∈ cs.head?, c.isDigit = false) :
      Begins position ⟨.var digits, position⟩ ('x' :: (digits ++ cs))
  | char {c : Char} {cs : List Char} (hc : isBlank c = false) (hx : c ≠ 'x') :
      Begins position ⟨.ofChar c, position⟩ (c :: cs)

theorem Begins.position_eq {position : Nat} {l : Lexeme} {cs : List Char}
    (h : Begins position l cs) : l.position = position := by
  cases h <;> rfl

theorem Begins.head?_eq {position : Nat} {l : Lexeme} {cs : List Char} (h : Begins position l cs) :
    cs.head? = some l.token.head := by
  cases h with
  | var => rfl
  | char => rw [Token.head_ofChar, List.head?_cons]

/-- The lexemes before the cut are those before any text that goes on with the same character. -/
structure Cut (position : Nat) (before : List Char) (c : Char) (read : List Lexeme) : Prop where
  lexemes_before : lexemes position before = read
  lexemes_cons : ∀ more, lexemes position (before ++ c :: more) =
    read ++ lexemes (position + utf8Len before) (c :: more)

theorem Cut.nil (position : Nat) (c : Char) : Cut position [] c [] where
  lexemes_before := by rw [lexemes]
  lexemes_cons _ := rfl

theorem Cut.blank {position : Nat} {before : List Char} {c d : Char} {read : List Lexeme}
    (hd : isBlank d = true) (h : Cut (position + d.utf8Size) before c read) :
    Cut position (d :: before) c read where
  lexemes_before := by rw [lexemes_blank position _ hd, h.lexemes_before]
  lexemes_cons more := by
    rw [List.cons_append, lexemes_blank position _ hd, h.lexemes_cons, utf8Len_char]

theorem Cut.char {position : Nat} {before : List Char} {c d : Char} {read : List Lexeme}
    (hd : isBlank d = false) (hx : d ≠ 'x') (h : Cut (position + d.utf8Size) before c read) :
    Cut position (d :: before) c (⟨.ofChar d, position⟩ :: read) where
  lexemes_before := by rw [lexemes_char position _ hd hx, h.lexemes_before]
  lexemes_cons more := by
    rw [List.cons_append, lexemes_char position _ hd hx, h.lexemes_cons, utf8Len_char,
      List.cons_append]

theorem Cut.var {position : Nat} {before digits : List Char} {c : Char} {read : List Lexeme}
    (hd : ∀ d ∈ digits, d.isDigit = true) (hc : ∀ d ∈ (before ++ [c]).head?, d.isDigit = false)
    (h : Cut (position + 1 + digits.length) before c read) :
    Cut position ('x' :: (digits ++ before)) c (⟨.var digits, position⟩ :: read) where
  lexemes_before := by
    have hbefore : ∀ d ∈ before.head?, d.isDigit = false := by
      cases before with
      | nil => exact fun d hd => by cases hd
      | cons d before => exact hc
    rw [lexemes_var position hd hbefore, h.lexemes_before]
  lexemes_cons more := by
    have hnext : ∀ d ∈ (before ++ c :: more).head?, d.isDigit = false := by
      cases before with
      | nil => exact hc
      | cons d before => exact hc
    rw [List.cons_append, List.append_assoc, lexemes_var position hd hnext, h.lexemes_cons,
      utf8Len_var hd, List.cons_append]

/-- Every lexeme of a text cuts it where the lexeme begins. -/
theorem Layout.exists_cut {ts : List Token} {cs : List Char} (hl : Layout ts cs) {position : Nat}
    {read post : List Lexeme} {l : Lexeme} (h : lexemes position cs = read ++ l :: post) :
    ∃ before rest, cs = before ++ rest ∧ Begins (position + utf8Len before) l rest ∧
      Cut position before l.token.head read := by
  induction hl generalizing position read with
  | done =>
    rw [lexemes] at h
    exact absurd h.symm (List.append_ne_nil_of_right_ne_nil _ (List.cons_ne_nil _ _))
  | blank hc _ ih =>
    rw [lexemes_blank position _ hc] at h
    obtain ⟨before, rest, rfl, hb, hcut⟩ := ih h
    refine ⟨_ :: before, rest, rfl, ?_, .blank hc hcut⟩
    rw [utf8Len_char]
    exact hb
  | @var ts digits cs hd hcs _ ih =>
    rw [lexemes_var position hd hcs] at h
    rcases read with _ | ⟨first, read⟩
    · obtain ⟨rfl, -⟩ := List.cons.inj h
      exact ⟨[], _, rfl, .var hd hcs, .nil position 'x'⟩
    · obtain ⟨rfl, htail⟩ := List.cons.inj h
      obtain ⟨before, rest, rfl, hb, hcut⟩ := ih htail
      refine ⟨'x' :: (digits ++ before), rest, by rw [List.cons_append, List.append_assoc], ?_,
        .var hd ?_ hcut⟩
      · rw [utf8Len_var hd]
        exact hb
      · cases before with
        | nil =>
          rw [List.nil_append, hb.head?_eq] at hcs
          exact hcs
        | cons d before => exact hcs
  | @char ts c cs hc hx _ ih =>
    rw [lexemes_char position _ hc hx] at h
    rcases read with _ | ⟨first, read⟩
    · obtain ⟨rfl, -⟩ := List.cons.inj h
      exact ⟨[], _, rfl, .char hc hx, .nil position _⟩
    · obtain ⟨rfl, htail⟩ := List.cons.inj h
      obtain ⟨before, rest, rfl, hb, hcut⟩ := ih htail
      refine ⟨_ :: before, rest, rfl, ?_, .char hc hx hcut⟩
      rw [utf8Len_char]
      exact hb

end Keystream
