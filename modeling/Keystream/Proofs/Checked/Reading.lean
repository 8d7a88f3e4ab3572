import Keystream.Proofs.Checked.Forms
import Keystream.Proofs.Parsing

/-!
# Reading expressions without trees

These readers hold terms where the readers of trees hold a tree: a factor is built at once, and what
has been read is multiplied and added up on the way. Since every factor is built in the variables of
the whole expression, no operator ever meets two numbers of variables, also in a text that turns out
to be no expression.
-/

namespace Keystream

open Checked

namespace Terms

abbrev Reader := (input : List Lexeme) → Checked (Reading Terms input.length)

theorem length_lt_cons (rest : List Lexeme) : rest.length < rest.length + 1 :=
  Nat.lt_succ_self _

theorem length_lt_of_cons_lt {after rest : List Lexeme} (h : after.length + 1 < rest.length) :
    after.length < rest.length + 1 :=
  Nat.lt_succ_of_lt (Nat.lt_of_succ_lt h)

/-- The variable with these digits after the letter x at `position`. -/
def readVariable (n : Nat) (numbering : Numbering) (digits : List Char) (position : Nat) :
    Checked Terms :=
  if digits = [] then fail (.parse (.missingIndex position))
  else do
    let last ← sub (← add numbering.first n) 1
    let index := Expr.decimal digits
    if numbering.first ≤ index ∧ index ≤ last then
      ofVariable n (← sub index numbering.first)
    else fail (.parse (.variableOutOfRange digits position numbering.first last))

section Readers

variable (n : Nat) (numbering : Numbering) (stop : Nat) (inside : Nat → Reader)

def readFactor : Reader
  | [] => fail (.parse (.unexpectedEnd stop))
  | ⟨.zero, _⟩ :: rest => do
    return ⟨← zero n, rest, length_lt_cons rest⟩
  | ⟨.one, _⟩ :: rest => do
    return ⟨← one n, rest, length_lt_cons rest⟩
  | ⟨.var digits, position⟩ :: rest => do
    return ⟨← readVariable n numbering digits position, rest, length_lt_cons rest⟩
  | ⟨.opening, position⟩ :: rest => do
    match ← inside position rest with
    | ⟨_, [], _⟩ => fail (.parse (.unclosedParenthesis position))
    | ⟨t, ⟨.closing, _⟩ :: after, h⟩ =>
      return ⟨t, after, length_lt_of_cons_lt h⟩
    | ⟨_, ⟨token, found⟩ :: _, _⟩ => fail (.parse (.unexpectedToken token.head found))
  | ⟨token, position⟩ :: _ => fail (.parse (.unexpectedToken token.head position))

/-- Multiplies a product by all factors that follow. -/
def readFactors {bound : Nat} (product : Terms) (input : List Lexeme)
    (h : input.length < bound) : Checked (Reading Terms bound) :=
  if Expr.atFactor input then do
    let ⟨factor, rest, hr⟩ ← readFactor n numbering stop inside input
    let product ← NormalForm.Operator.and.checkedApply product factor
    readFactors product rest (Nat.lt_trans hr h)
  else return ⟨product, input, h⟩
termination_by input.length

def readProduct : Reader := fun input => do
  let ⟨factor, rest, h⟩ ← readFactor n numbering stop inside input
  readFactors n numbering stop inside factor rest h

/-- Adds to a sum all products that follow, each behind a plus. -/
def readProducts {bound : Nat} (sum : Terms) (input : List Lexeme) (h : input.length < bound) :
    Checked (Reading Terms bound) :=
  match input with
  | ⟨.plus, _⟩ :: rest => do
    let ⟨product, after, ha⟩ ← readProduct n numbering stop inside rest
    let sum ← NormalForm.Operator.xor.checkedApply sum product
    readProducts sum after (Nat.lt_trans (Nat.lt_succ_of_lt ha) h)
  | input => return ⟨sum, input, h⟩
termination_by input.length
decreasing_by exact Nat.lt_succ_of_lt ha

def readSum : Reader := fun input => do
  let ⟨product, rest, h⟩ ← readProduct n numbering stop inside input
  readProducts n numbering stop inside product rest h

end Readers

/-- Reads the sum behind an opening parenthesis, inside which `room - 1` more may be open. -/
def readGroup (n : Nat) (numbering : Numbering) (stop : Nat) (room : Nat) (position : Nat) : Reader :=
  match room with
  | 0 => fun _ => fail (.parse (.nestingTooDeep position Expr.maxNesting))
  | room + 1 => readSum n numbering stop (readGroup n numbering stop room)

/-- Reads lexemes to their end, in a text of `stop` bytes. -/
def ofLexemes (n : Nat) (numbering : Numbering) (stop : Nat) : List Lexeme → Checked Terms
  | [] => fail (.parse .empty)
  | l :: input => do
    match ← readSum n numbering stop (readGroup n numbering stop Expr.maxNesting) (l :: input) with
    | ⟨t, [], _⟩ => return t
    | ⟨_, ⟨token, position⟩ :: _, _⟩ => fail (.parse (.unexpectedToken token.head position))

/-- The terms of the expression; the number of variables is checked before the text. -/
def parse (arity : Nat) (numbering : Numbering) (s : String) : Checked Terms := do
  checkArity arity
  ofLexemes arity numbering s.utf8ByteSize (lexemes 0 s.toList)

end Terms

def Expr.terms {n : Nat} {l : Level} (e : Expr n l) : Terms :=
  ⟨n, e.polynomial.monomials⟩

namespace Terms

/-- The reading of terms that belongs to the reading of a tree. -/
def ofReading {n : Nat} {l : Level} {bound : Nat} :
    Except ParseError (Reading (Expr n l) bound) → Checked (Reading Terms bound)
  | .error e => fail (.parse e)
  | .ok ⟨e, rest, h⟩ => .ok ⟨e.terms, rest, h⟩

variable {n : Nat} (hn : 0 < n ∧ n ≤ 63) (numbering : Numbering)
include hn

theorem zero_of_range : zero n = .ok (Expr.const false : Expr n .factor).terms := by
  rw [zero_eq, NormalForm.zero, NormalForm.build_of_range hn]
  rfl

theorem one_of_range : one n = .ok (Expr.const true : Expr n .factor).terms := by
  rw [one_eq, NormalForm.one, NormalForm.build_of_range hn]
  rfl

theorem ofVariable_of_range (i : Fin n) :
    ofVariable n i = .ok (Expr.var i : Expr n .factor).terms := by
  rw [ofVariable_eq, NormalForm.ofVariable, NormalForm.build_of_range hn, dif_pos i.isLt]
  rfl

theorem readVariable_eq (digits : List Char) (position : Nat) :
    readVariable n numbering digits position =
      match Expr.readVariable n numbering digits position with
      | .error e => fail (.parse e)
      | .ok i => .ok (Expr.var i : Expr n .factor).terms := by
  have hfirst : numbering.first ≤ 1 := by cases numbering <;> decide
  have hword : numbering.first + n < 2 ^ (64 : Nat) := by omega
  have hlast : 1 ≤ numbering.first + n := by omega
  unfold readVariable Expr.readVariable
  split
  · rfl
  · simp only [add_of_lt hword, ok_bind, sub_of_le hlast]
    by_cases h : numbering.first ≤ Expr.decimal digits ∧ Expr.decimal digits < numbering.first + n
    · rw [if_pos (by omega), dif_pos h, sub_of_le h.1, ok_bind]
      exact ofVariable_of_range hn ⟨Expr.decimal digits - numbering.first, by omega⟩
    · rw [if_neg (by omega), dif_neg h]

/-- Operators on terms in the same variables are applied without a fault. -/
theorem apply_of_range {k l : Level} (d : Expr n k) (e : Expr n l) :
    NormalForm.Operator.and.checkedApply d.terms e.terms =
        .ok ⟨n, (d.polynomial * e.polynomial).monomials⟩ ∧
      NormalForm.Operator.xor.checkedApply d.terms e.terms =
        .ok ⟨n, (d.polynomial + e.polynomial).monomials⟩ := by
  let f : NormalForm := ⟨n, d.polynomial, hn, d.within_polynomial (Nat.le_succ_of_le hn.2)⟩
  let g : NormalForm := ⟨n, e.polynomial, hn, e.within_polynomial (Nat.le_succ_of_le hn.2)⟩
  have ha : g.arity = f.arity := rfl
  constructor
  · refine (NormalForm.Operator.checkedApply_of_eq .and ha).trans ?_
    rw [NormalForm.Operator.apply, NormalForm.product, dif_pos ha]
    rfl
  · refine (NormalForm.Operator.checkedApply_of_eq .xor ha).trans ?_
    rw [NormalForm.Operator.apply, NormalForm.sum, dif_pos ha]
    rfl

section Readers

variable (stop : Nat) {inside : Nat → Reader} {trees : Nat → Keystream.Reader (Expr n .sum)}
  (hinside : ∀ position input, inside position input = ofReading (trees position input))
include hinside

theorem readFactor_eq (input : List Lexeme) :
    readFactor n numbering stop inside input =
      ofReading (Expr.readFactor numbering stop trees input) := by
  match input with
  | [] => rfl
  | ⟨.zero, _⟩ :: rest =>
    rw [readFactor, zero_of_range hn]
    rfl
  | ⟨.one, _⟩ :: rest =>
    rw [readFactor, one_of_range hn]
    rfl
  | ⟨.var digits, position⟩ :: rest =>
    rw [readFactor, Expr.readFactor, readVariable_eq hn]
    cases Expr.readVariable n numbering digits position <;> rfl
  | ⟨.opening, position⟩ :: rest =>
    rw [readFactor, Expr.readFactor, hinside]
    cases trees position rest with
    | error e => rfl
    | ok reading =>
      obtain ⟨e, rest, h⟩ := reading
      cases rest with
      | nil => rfl
      | cons l after =>
        obtain ⟨token, _⟩ := l
        cases token <;> rfl
  | ⟨.plus, _⟩ :: rest => rfl
  | ⟨.closing, _⟩ :: rest => rfl
  | ⟨.stray _, _⟩ :: rest => rfl

theorem readFactors_eq {bound : Nat} (p : Expr n .product) (input : List Lexeme)
    (h : input.length < bound) :
    readFactors n numbering stop inside p.terms input h =
      ofReading (Expr.readFactors numbering stop trees p input h) := by
  fun_induction Expr.readFactors numbering stop trees p input h with
  | case1 p input h hat e he =>
    rw [readFactors, if_pos hat, readFactor_eq hn numbering stop hinside, he]
    rfl
  | case2 p input h hat f rest hr he ih =>
    rw [readFactors, if_pos hat, readFactor_eq hn numbering stop hinside, he]
    change (NormalForm.Operator.and.checkedApply p.terms f.terms >>= fun _ => _) = _
    rw [(apply_of_range hn p f).1]
    exact ih
  | case3 p input h hat =>
    rw [readFactors, if_neg hat]
    rfl

theorem readProduct_eq (input : List Lexeme) :
    readProduct n numbering stop inside input =
      ofReading (Expr.readProduct numbering stop trees input) := by
  rw [readProduct, Expr.readProduct, readFactor_eq hn numbering stop hinside]
  cases Expr.readFactor numbering stop trees input with
  | error e => rfl
  | ok reading =>
    obtain ⟨f, rest, h⟩ := reading
    exact readFactors_eq hn numbering stop hinside (.single f) rest h

theorem readProducts_eq {bound : Nat} (s : Expr n .sum) (input : List Lexeme)
    (h : input.length < bound) :
    readProducts n numbering stop inside s.terms input h =
      ofReading (Expr.readTerms numbering stop trees s input h) := by
  fun_induction Expr.readTerms numbering stop trees s input h with
  | case1 s position rest h e he =>
    rw [readProducts, readProduct_eq hn numbering stop hinside, he]
    rfl
  | case2 s position rest _ p after ha he h ih =>
    rw [readProducts, readProduct_eq hn numbering stop hinside, he]
    change (NormalForm.Operator.xor.checkedApply s.terms p.terms >>= fun _ => _) = _
    rw [(apply_of_range hn s p).2]
    exact ih
  | case3 s input h hplus =>
    rw [readProducts]
    · rfl
    · exact hplus

theorem readSum_eq (input : List Lexeme) :
    readSum n numbering stop inside input =
      ofReading (Expr.readSum numbering stop trees input) := by
  rw [readSum, Expr.readSum, readProduct_eq hn numbering stop hinside]
  cases Expr.readProduct numbering stop trees input with
  | error e => rfl
  | ok reading =>
    obtain ⟨p, rest, h⟩ := reading
    exact readProducts_eq hn numbering stop hinside (.term p) rest h

end Readers

theorem readGroup_eq (stop room position : Nat) (input : List Lexeme) :
    readGroup n numbering stop room position input =
      ofReading (Expr.readGroup numbering stop room position input : Except ParseError
        (Reading (Expr n .sum) input.length)) := by
  induction room generalizing position input with
  | zero => rfl
  | succ room ih => exact readSum_eq hn numbering stop ih input

theorem ofLexemes_eq (stop : Nat) (input : List Lexeme) :
    ofLexemes n numbering stop input =
      match Expr.ofLexemes n numbering stop input with
      | .error e => fail (.parse e)
      | .ok e => .ok e.terms := by
  cases input with
  | nil => rfl
  | cons l input =>
    rw [ofLexemes, Expr.ofLexemes,
      readSum_eq hn numbering stop (readGroup_eq hn numbering stop Expr.maxNesting)]
    cases Expr.readSum numbering stop (Expr.readGroup numbering stop Expr.maxNesting)
        (l :: input) with
    | error e => rfl
    | ok reading =>
      obtain ⟨e, rest, h⟩ := reading
      cases rest <;> rfl

omit hn in
theorem parse_eq (arity : Nat) (s : String) :
    parse arity numbering s = faultless ((NormalForm.parse arity numbering s).map NormalForm.terms) := by
  apply checkArity_bind_eq
  intro hle hpos
  rw [ofLexemes_eq ⟨hpos, hle⟩, ← Expr.parse]
  cases Expr.parse arity numbering s <;> rfl

end Terms

end Keystream
