import Keystream.BooleanFunction
import Keystream.Proofs.Layout
import Keystream.Proofs.PolynomialSum
import Keystream.Proofs.Readers

/-!
# Meaning and language of the parser

A text renders a tree if it is a layout of tokens that spell the tree. The parser accepts the
renderings of trees whose groups are at most 128 deep, and the normal form it gives has the value of
the tree at every input. Said without trees, it accepts the layouts of sentences of the grammar whose
variables are in range and whose parentheses nest at most 128 deep.
-/

namespace Keystream

theorem exists_ok_of_isOk {α : Type} {x : Except Error α} (h : x.isOk = true) :
    ∃ a, x = .ok a := by
  cases x with
  | error e => cases h
  | ok a => exact ⟨a, rfl⟩

namespace Expr

variable {n : Nat} {numbering : Numbering}

def Renders (numbering : Numbering) {l : Level} (e : Expr n l) (cs : List Char) : Prop :=
  ∃ ts, Layout ts cs ∧ Spells numbering e ts

theorem renders_iff {l : Level} {e : Expr n l} {cs : List Char} (position : Nat) :
    e.Renders numbering cs ↔ Spells numbering e ((lexemes position cs).map Lexeme.token) := by
  simp only [Renders, layout_iff position, exists_eq_left']

theorem Renders.unique {e e' : Expr n .sum} {cs : List Char} (h : e.Renders numbering cs)
    (h' : e'.Renders numbering cs) : e = e' :=
  ((renders_iff 0).1 h).unique ((renders_iff 0).1 h')

theorem parse_eq_ok_iff {s : String} {e : Expr n .sum} :
    parse n numbering s = .ok e ↔ e.Renders numbering s.toList ∧ e.depth ≤ maxNesting := by
  rw [renders_iff 0]
  exact ofLexemes_eq_ok_iff

/-- Texts that are read are those of sentences with variables in range and shallow nesting. -/
theorem exists_parse_iff {s : String} :
    (∃ e : Expr n .sum, parse n numbering s = .ok e) ↔
      ∃ ts, Layout ts s.toList ∧ Sentence .sum ts ∧ VariablesIn n numbering ts ∧
        NestedWithin maxNesting ts := by
  constructor
  · rintro ⟨e, he⟩
    obtain ⟨⟨ts, hl, hs⟩, hd⟩ := parse_eq_ok_iff.1 he
    exact ⟨ts, hl, hs.sentence, hs.variablesIn, hs.nestedWithin_iff.2 hd⟩
  · rintro ⟨ts, hl, ht, hv, hn⟩
    obtain ⟨e, hs⟩ := exists_spells ht hv
    exact ⟨e, parse_eq_ok_iff.2 ⟨⟨ts, hl, hs⟩, hs.nestedWithin_iff.1 hn⟩⟩

end Expr

namespace NormalForm

theorem build_of_range {arity : Nat} (h : 0 < arity ∧ arity ≤ 63)
    (p : arity ≤ 63 → Except Error {p : Polynomial // p.Within arity}) :
    build arity p = (p h.2).map fun p => ⟨arity, p.1, h, p.2⟩ := by
  rw [build, dif_neg (Nat.ne_of_gt h.1), dif_neg (Nat.not_lt.2 h.2)]
  cases p h.2 <;> rfl

theorem build_of_lt {arity : Nat} (h : 63 < arity)
    (p : arity ≤ 63 → Except Error {p : Polynomial // p.Within arity}) :
    build arity p = .error (.tooManyVariables 63) := by
  rw [build, dif_neg (Nat.ne_of_gt (Nat.lt_of_le_of_lt (Nat.zero_le 63) h)), dif_pos h]

def ofExpr {arity : Nat} (h : 0 < arity ∧ arity ≤ 63) (e : Expr arity .sum) : NormalForm :=
  ⟨arity, e.polynomial, h, e.within_polynomial (Nat.le_succ_of_le h.2)⟩

theorem eval_ofExpr {arity : Nat} (h : 0 < arity ∧ arity ≤ 63) (e : Expr arity .sum)
    (input : UInt64) : (ofExpr h e).eval input = e.eval input :=
  e.eval_polynomial (Nat.le_succ_of_le h.2) input

theorem parse_of_range {arity : Nat} (h : 0 < arity ∧ arity ≤ 63) (numbering : Numbering)
    (s : String) :
    parse arity numbering s =
      match Expr.parse arity numbering s with
      | .error e => .error (.parse e)
      | .ok e => .ok (ofExpr h e) := by
  rw [parse, build_of_range h]
  cases Expr.parse arity numbering s <;> rfl

theorem parse_eq_ok_iff {arity : Nat} {numbering : Numbering} {s : String} {f : NormalForm} :
    parse arity numbering s = .ok f ↔
      ∃ (h : 0 < arity ∧ arity ≤ 63) (e : Expr arity .sum),
        Expr.parse arity numbering s = .ok e ∧ f = ofExpr h e := by
  by_cases h : 0 < arity ∧ arity ≤ 63
  · rw [parse_of_range h]
    cases he : Expr.parse arity numbering s with
    | error e => simp
    | ok e => simp [h, eq_comm]
  · constructor
    · intro hf
      rcases Nat.eq_zero_or_pos arity with rfl | hpos
      · cases hf
      · rw [parse, build_of_lt (by omega)] at hf
        cases hf
    · rintro ⟨h', -⟩
      exact absurd h' h

/-- Only the low bits of an input, one for each variable, matter. -/
theorem eval_low (f : NormalForm) (input : UInt64) :
    f.eval (Word.low f.arity input) = f.eval input :=
  f.within.eval_low input

/-- An accepted text renders exactly one tree, and both views of it have the value of the tree. -/
theorem parse_meaning {arity : Nat} {numbering : Numbering} {s : String} {f : NormalForm}
    (h : parse arity numbering s = .ok f) :
    ∃ e : Expr arity .sum, e.Renders numbering s.toList ∧
      (∀ e' : Expr arity .sum, e'.Renders numbering s.toList → e' = e) ∧
      (∀ input, f.eval input = e.eval input) ∧
      ∃ g, BooleanFunction.parse arity numbering s = .ok g ∧
        ∀ input, g.evalWord input = e.eval input := by
  obtain ⟨hr, e, he, rfl⟩ := parse_eq_ok_iff.1 h
  obtain ⟨hrenders, -⟩ := Expr.parse_eq_ok_iff.1 he
  refine ⟨e, hrenders, fun e' he' => he'.unique hrenders, eval_ofExpr hr e,
    .ofForm (ofExpr hr e), ?_, ?_⟩
  · rw [BooleanFunction.parse, h]
    rfl
  · intro input
    exact ((ofExpr hr e).eval_low input).trans (eval_ofExpr hr e input)

theorem parse_meaning_example :
    ∃ f, parse 3 .fromOne "1 + x1 x02 + (x1 + 1)x3" = .ok f ∧
      ∃ e : Expr 3 .sum, e.Renders .fromOne "1 + x1 x02 + (x1 + 1)x3".toList ∧
        (∀ e' : Expr 3 .sum, e'.Renders .fromOne "1 + x1 x02 + (x1 + 1)x3".toList → e' = e) ∧
        (∀ input, f.eval input = e.eval input) ∧
        ∃ g, BooleanFunction.parse 3 .fromOne "1 + x1 x02 + (x1 + 1)x3" = .ok g ∧
          ∀ input, g.evalWord input = e.eval input := by
  obtain ⟨f, hf⟩ : ∃ f, parse 3 .fromOne "1 + x1 x02 + (x1 + 1)x3" = .ok f :=
    exists_ok_of_isOk (by decide +kernel)
  exact ⟨f, hf, parse_meaning hf⟩

/-- The number of variables is checked first; then exactly the language is accepted. -/
theorem parse_accepts_iff (arity : Nat) (numbering : Numbering) (s : String) :
    (0 < arity → arity ≤ 63 →
      ((∃ f, parse arity numbering s = .ok f) ↔
        ∃ ts, Layout ts s.toList ∧ Sentence .sum ts ∧ VariablesIn arity numbering ts ∧
          NestedWithin 128 ts)) ∧
    (arity = 0 → parse arity numbering s = .error .noVariables) ∧
    (63 < arity → parse arity numbering s = .error (.tooManyVariables 63)) := by
  refine ⟨?_, ?_, fun h => build_of_lt h _⟩
  · intro hpos hle
    rw [← Expr.maxNesting, ← Expr.exists_parse_iff]
    constructor
    · rintro ⟨f, hf⟩
      obtain ⟨-, e, he, -⟩ := parse_eq_ok_iff.1 hf
      exact ⟨e, he⟩
    · rintro ⟨e, he⟩
      exact ⟨_, parse_eq_ok_iff.2 ⟨⟨hpos, hle⟩, e, he, rfl⟩⟩
  · rintro rfl
    rfl

theorem parse_accepts_iff_example :
    (∃ ts, Layout ts "x1 (x02 + 1)".toList ∧ Sentence .sum ts ∧ VariablesIn 3 .fromOne ts ∧
      NestedWithin 128 ts) ∧
    parse 0 .fromOne "x1" = .error .noVariables ∧
    parse 64 .fromOne "(((" = .error (.tooManyVariables 63) := by
  have hparse : ∃ f, parse 3 .fromOne "x1 (x02 + 1)" = .ok f :=
    exists_ok_of_isOk (by decide +kernel)
  obtain ⟨hlanguage, -, -⟩ := parse_accepts_iff 3 .fromOne "x1 (x02 + 1)"
  obtain ⟨-, hzero, -⟩ := parse_accepts_iff 0 .fromOne "x1"
  obtain ⟨-, -, hlarge⟩ := parse_accepts_iff 64 .fromOne "((("
  exact ⟨(hlanguage (Nat.succ_pos 2) (by decide)).1 hparse, hzero rfl, hlarge (Nat.lt_succ_self 63)⟩

end NormalForm

end Keystream
