import Keystream.Expr.Parser
import Keystream.Proofs.Cuts
import Keystream.Proofs.Stages

/-!
# Scanners

A scanner holds the characters of a text that are still to be read and a counter of the parentheses
that are open. `Passes` says what is kept by reading on: some prefix with a character that is not
blank is gone, its parentheses match, and the counter is back at its old value and has never been
above the largest number allowed.
-/

namespace Keystream

open String (utf8Len)

theorem Token.startsFactor_ofChar {c : Char} (hx : c ≠ 'x') :
    (ofChar c).startsFactor = ['0', '1', 'x', '('].contains c := by
  by_cases h : c = '0' ∨ c = '1' ∨ c = '('
  · obtain rfl | rfl | rfl := h <;> rfl
  · simp only [not_or] at h
    have hcontains : ['0', '1', 'x', '('].contains c = false := by simp [h, hx]
    rw [hcontains]
    cases hc : ofChar c with
    | zero => exact absurd (eq_head_of_ofChar hc) h.1
    | one => exact absurd (eq_head_of_ofChar hc) h.2.1
    | opening => exact absurd (eq_head_of_ofChar hc) h.2.2
    | var digits => exact absurd (eq_head_of_ofChar hc) hx
    | plus | closing | stray => rfl

/-- Every parenthesis has its partner. -/
inductive Matched : List Char → Prop where
  | nil : Matched []
  | char {c : Char} {cs : List Char} (ho : c ≠ '(') (hc : c ≠ ')') (h : Matched cs) :
      Matched (c :: cs)
  | group {cs ds : List Char} (h : Matched cs) (hd : Matched ds) :
      Matched ('(' :: (cs ++ ')' :: ds))

theorem Matched.append {cs ds : List Char} (h : Matched cs) (hd : Matched ds) :
    Matched (cs ++ ds) := by
  induction h with
  | nil => exact hd
  | char ho hc _ ih => exact .char ho hc ih
  | group h _ _ ih =>
    rw [List.cons_append, List.append_assoc, List.cons_append]
    exact .group h ih

theorem matched_takeWhile {p : Char → Bool} (ho : p '(' = false) (hc : p ')' = false)
    (cs : List Char) : Matched (cs.takeWhile p) := by
  induction cs with
  | nil => exact .nil
  | cons c cs ih =>
    rw [List.takeWhile_cons]
    split
    · next hp =>
      refine .char (ne_of_apply_ne p ?_) (ne_of_apply_ne p ?_) ih
      · rw [hp, ho]
        decide
      · rw [hp, hc]
        decide
    · exact .nil

structure Scanner where
  unread : List Char
  /-- The byte at which the unread characters begin. -/
  position : Nat
  /-- How many parentheses are counted as open. -/
  depth : Nat
  /-- The largest number that was ever counted; nothing is decided by it. -/
  deepest : Nat

namespace Scanner

def start (s : String) : Scanner :=
  ⟨s.toList, 0, 0, 0⟩

/-- Passes the characters in front that have a property. -/
def skip (p : Char → Bool) (σ : Scanner) : Scanner :=
  { σ with
    unread := σ.unread.dropWhile p
    position := σ.position + utf8Len (σ.unread.takeWhile p) }

/-- The first unread character with its position. -/
def front (σ : Scanner) : Option (Char × Nat) :=
  σ.unread.head?.map (·, σ.position)

/-- Whether the first unread character is one of these. -/
def isAt (cs : List Char) (σ : Scanner) : Bool :=
  σ.unread.head?.any cs.contains

def next (σ : Scanner) : Scanner :=
  match σ.unread with
  | [] => σ
  | c :: cs => { σ with unread := cs, position := σ.position + c.utf8Size }

def enter (σ : Scanner) : Scanner :=
  { σ with depth := σ.depth + 1, deepest := max σ.deepest (σ.depth + 1) }

def leave (σ : Scanner) : Scanner :=
  { σ with depth := σ.depth - 1 }

variable {σ τ υ : Scanner} {read more : List Char}

theorem depth_next (σ : Scanner) : σ.next.depth = σ.depth := by
  unfold next
  split <;> rfl

theorem deepest_next (σ : Scanner) : σ.next.deepest = σ.deepest := by
  unfold next
  split <;> rfl

/-- The lexemes of the unread characters. -/
def lexemes (σ : Scanner) : List Lexeme :=
  Keystream.lexemes σ.position σ.unread

theorem lexemes_dropWhile (position : Nat) (cs : List Char) :
    Keystream.lexemes (position + utf8Len (cs.takeWhile isBlank)) (cs.dropWhile isBlank) =
      Keystream.lexemes position cs := by
  induction cs generalizing position with
  | nil => rfl
  | cons c cs ih =>
    by_cases hc : isBlank c = true
    · rw [List.takeWhile_cons_of_pos hc, List.dropWhile_cons_of_pos hc, lexemes_blank _ _ hc,
        utf8Len_char, ih]
    · rw [List.takeWhile_cons_of_neg hc, List.dropWhile_cons_of_neg hc]
      rfl

theorem lexemes_skip (σ : Scanner) : (σ.skip isBlank).lexemes = σ.lexemes :=
  lexemes_dropWhile σ.position σ.unread

theorem isBlank_of_skip {c : Char} {cs : List Char}
    (h : (σ.skip isBlank).unread = c :: cs) : isBlank c = false := by
  have hnot := List.head?_dropWhile_not isBlank σ.unread
  have hhead : (σ.unread.dropWhile isBlank).head? = some c := congrArg List.head? h
  rw [hhead] at hnot
  exact hnot

theorem lexemes_of_nil (h : σ.unread = []) : σ.lexemes = [] := by
  rw [lexemes, h, Keystream.lexemes]

theorem front_of_nil (h : σ.unread = []) : σ.front = none := by
  rw [front, h, List.head?_nil, Option.map_none]

theorem front_of_cons {c : Char} {cs : List Char} (h : σ.unread = c :: cs) :
    σ.front = some (c, σ.position) := by
  rw [front, h, List.head?_cons, Option.map_some]

theorem next_of_cons {c : Char} {cs : List Char} (h : σ.unread = c :: cs) :
    σ.next = { σ with unread := cs, position := σ.position + c.utf8Size } := by
  rw [next, h]

theorem lexemes_of_char {c : Char} {cs : List Char} (h : σ.unread = c :: cs)
    (hc : isBlank c = false) (hx : c ≠ 'x') :
    σ.lexemes = ⟨.ofChar c, σ.position⟩ :: σ.next.lexemes := by
  rw [lexemes, h, lexemes_char _ _ hc hx, next_of_cons h]
  rfl

theorem lexemes_of_var {cs : List Char} (h : σ.unread = 'x' :: cs) :
    σ.lexemes = ⟨.var (σ.next.unread.takeWhile Char.isDigit), σ.position⟩ ::
      (σ.next.skip Char.isDigit).lexemes := by
  have hd : ∀ d ∈ cs.takeWhile Char.isDigit, d.isDigit = true :=
    fun d hd => List.all_eq_true.1 List.all_takeWhile d hd
  have hx : 'x'.utf8Size = 1 := rfl
  rw [lexemes, h, Keystream.lexemes, if_pos rfl, next_of_cons h]
  simp only [skip, lexemes, utf8Len_digits hd, hx]

/-- What a scanner shows: nothing more to read, a variable or another character. -/
theorem lexemes_cases (σ : Scanner) :
    ((σ.skip isBlank).unread = [] ∧ σ.lexemes = []) ∨
    (∃ cs, (σ.skip isBlank).unread = 'x' :: cs ∧
      σ.lexemes = ⟨.var ((σ.skip isBlank).next.unread.takeWhile Char.isDigit),
        (σ.skip isBlank).position⟩ :: ((σ.skip isBlank).next.skip Char.isDigit).lexemes) ∨
    ∃ c cs, (σ.skip isBlank).unread = c :: cs ∧ c ≠ 'x' ∧ isBlank c = false ∧
      σ.lexemes = ⟨.ofChar c, (σ.skip isBlank).position⟩ :: (σ.skip isBlank).next.lexemes := by
  rcases hunread : (σ.skip isBlank).unread with _ | ⟨c, cs⟩
  · exact .inl ⟨rfl, by rw [← lexemes_skip, lexemes_of_nil hunread]⟩
  · by_cases hx : c = 'x'
    · subst hx
      exact .inr (.inl ⟨cs, rfl, by rw [← lexemes_skip, lexemes_of_var hunread]⟩)
    · have hc := isBlank_of_skip hunread
      exact .inr (.inr ⟨c, cs, rfl, hx, hc, by rw [← lexemes_skip, lexemes_of_char hunread hc hx]⟩)

theorem lexemes_ne_nil {c : Char} {cs : List Char} (h : (σ.skip isBlank).unread = c :: cs) :
    σ.lexemes ≠ [] := by
  obtain ⟨hend, -⟩ | ⟨_, -, hlexemes⟩ | ⟨_, _, -, -, -, hlexemes⟩ := σ.lexemes_cases
  · cases h.symm.trans hend
  · exact hlexemes ▸ List.cons_ne_nil _ _
  · exact hlexemes ▸ List.cons_ne_nil _ _

theorem isAt_of_cons {c : Char} {cs : List Char} (h : σ.unread = c :: cs) (ds : List Char) :
    σ.isAt ds = ds.contains c := by
  rw [isAt, h, List.head?_cons, Option.any_some]

theorem isAt_cons (c : Char) (cs : List Char) (σ : Scanner) :
    σ.isAt (c :: cs) = (σ.isAt [c] || σ.isAt cs) := by
  rcases hunread : σ.unread with _ | ⟨d, ds⟩
  · simp only [isAt, hunread, List.head?_nil, Option.any_none, Bool.or_false]
  · simp only [isAt_of_cons hunread, List.contains_cons, List.contains_nil, Bool.or_false]

theorem atFactor_lexemes (σ : Scanner) :
    Expr.atFactor σ.lexemes = (σ.skip isBlank).isAt ['0', '1', 'x', '('] := by
  obtain ⟨hend, hlexemes⟩ | ⟨cs, hx, hlexemes⟩ | ⟨c, cs, hc, hne, -, hlexemes⟩ := σ.lexemes_cases
  · rw [hlexemes, isAt, hend]
    rfl
  · rw [hlexemes, isAt_of_cons hx]
    rfl
  · rw [hlexemes, isAt_of_cons hc]
    exact Token.startsFactor_ofChar hne

theorem lexemes_of_plus (h : (σ.skip isBlank).isAt ['+'] = true) :
    (∃ cs, (σ.skip isBlank).unread = '+' :: cs) ∧
      σ.lexemes = ⟨.plus, (σ.skip isBlank).position⟩ :: (σ.skip isBlank).next.lexemes := by
  obtain ⟨hend, -⟩ | ⟨cs, hx, -⟩ | ⟨c, cs, hc, -, -, hlexemes⟩ := σ.lexemes_cases
  · rw [isAt, hend] at h
    cases h
  · rw [isAt_of_cons hx] at h
    cases h
  · rw [isAt_of_cons hc] at h
    obtain rfl : c = '+' := by simpa using h
    exact ⟨⟨cs, hc⟩, hlexemes⟩

/-- Behind a sum stands neither a plus nor a factor. -/
theorem isAt_of_endsSum (h : Expr.EndsSum σ.lexemes) :
    (σ.skip isBlank).isAt ['+', '0', '1', 'x', '('] = false := by
  rw [isAt_cons, Bool.or_eq_false_iff]
  constructor
  · rw [← Bool.not_eq_true]
    intro hplus
    obtain ⟨-, hlexemes⟩ := lexemes_of_plus hplus
    rw [hlexemes] at h
    obtain ⟨-, hne⟩ := h _ rfl
    exact hne rfl
  · rw [← atFactor_lexemes]
    exact h.atFactor

theorem isAt_of_plus {position : Nat} {rest : List Lexeme}
    (h : σ.lexemes = ⟨.plus, position⟩ :: rest) : (σ.skip isBlank).isAt ['+'] = true := by
  obtain ⟨-, hlexemes⟩ | ⟨cs, -, hlexemes⟩ | ⟨c, cs, hc, -, -, hlexemes⟩ := σ.lexemes_cases
  · cases h.symm.trans hlexemes
  · cases h.symm.trans hlexemes
  · have htoken := congrArg Lexeme.token (List.cons.inj (h.symm.trans hlexemes)).1
    rw [isAt_of_cons hc, Token.eq_head_of_ofChar htoken.symm]
    rfl

/-- The scanner goes on over these characters, and the parentheses counted behind them are those
counted before. -/
structure Moves (σ τ : Scanner) (read : List Char) : Prop where
  unread_eq : σ.unread = read ++ τ.unread
  matched : Matched read
  depth_eq : τ.depth = σ.depth
  deepest_le : τ.deepest ≤ max σ.deepest Expr.maxNesting

theorem Moves.trans (h : Moves σ τ read) (hmore : Moves τ υ more) : Moves σ υ (read ++ more) where
  unread_eq := by rw [h.unread_eq, hmore.unread_eq, List.append_assoc]
  matched := h.matched.append hmore.matched
  depth_eq := hmore.depth_eq.trans h.depth_eq
  deepest_le := by
    have hσ := h.deepest_le
    have hτ := hmore.deepest_le
    omega

theorem moves_skip (σ : Scanner) {p : Char → Bool} (ho : p '(' = false) (hc : p ')' = false) :
    Moves σ (σ.skip p) (σ.unread.takeWhile p) where
  unread_eq := List.takeWhile_append_dropWhile.symm
  matched := matched_takeWhile ho hc σ.unread
  depth_eq := rfl
  deepest_le := Nat.le_max_left _ _

theorem moves_blanks (σ : Scanner) :
    Moves σ (σ.skip isBlank) (σ.unread.takeWhile isBlank) :=
  moves_skip σ (by decide) (by decide)

theorem moves_next {c : Char} {cs : List Char} (h : σ.unread = c :: cs) (ho : c ≠ '(')
    (hc : c ≠ ')') : Moves σ σ.next [c] := by
  rw [next_of_cons h]
  exact ⟨h, .char ho hc .nil, rfl, Nat.le_max_left _ _⟩

theorem deepest_le_of_enter (hdepth : σ.depth < Expr.maxNesting)
    (h : τ.deepest ≤ max σ.next.enter.deepest Expr.maxNesting) :
    τ.deepest ≤ max σ.deepest Expr.maxNesting := by
  have hle : τ.deepest ≤ max (max σ.next.deepest (σ.next.depth + 1)) Expr.maxNesting := h
  rw [depth_next, deepest_next] at hle
  omega

/-- Over a group the counter goes up and down again. -/
theorem moves_group {cs ds : List Char} (h : σ.unread = '(' :: cs)
    (hdepth : σ.depth < Expr.maxNesting) (hinside : Moves σ.next.enter τ read)
    (hτ : τ.leave.unread = ')' :: ds) : Moves σ τ.leave.next ('(' :: (read ++ [')'])) where
  unread_eq := by
    have hcs : cs = read ++ ')' :: ds := by
      rw [← hτ]
      rw [next_of_cons h] at hinside
      exact hinside.unread_eq
    rw [h, hcs, next_of_cons hτ, List.cons_append, List.append_assoc, List.singleton_append]
  matched := .group hinside.matched .nil
  depth_eq := by
    have hτdepth : τ.depth = σ.next.depth + 1 := hinside.depth_eq
    rw [depth_next] at hτdepth ⊢
    rw [leave, hτdepth, Nat.add_sub_cancel]
  deepest_le := by
    rw [deepest_next]
    exact deepest_le_of_enter hdepth hinside.deepest_le

/-- The scanner goes on over at least one character that is not blank. -/
def Passes (σ τ : Scanner) : Prop :=
  ∃ read, Moves σ τ read ∧ ∃ c ∈ read, isBlank c = false

theorem Passes.depth_eq (h : Passes σ τ) : τ.depth = σ.depth := by
  obtain ⟨read, hread, -⟩ := h
  exact hread.depth_eq

theorem Passes.deepest_le (h : Passes σ τ) : τ.deepest ≤ max σ.deepest Expr.maxNesting := by
  obtain ⟨read, hread, -⟩ := h
  exact hread.deepest_le

theorem Passes.moves_left (h : Moves σ τ read) (hp : Passes τ υ) : Passes σ υ := by
  obtain ⟨more, hmore, c, hmem, hc⟩ := hp
  exact ⟨read ++ more, h.trans hmore, c, List.mem_append_right read hmem, hc⟩

theorem Passes.moves_right (hp : Passes σ τ) (h : Moves τ υ more) : Passes σ υ := by
  obtain ⟨read, hread, c, hmem, hc⟩ := hp
  exact ⟨read ++ more, hread.trans h, c, List.mem_append_left more hmem, hc⟩

theorem Passes.trans (h : Passes σ τ) (hp : Passes τ υ) : Passes σ υ := by
  obtain ⟨read, hread, -⟩ := h
  exact hp.moves_left hread

theorem passes_char {c : Char} {cs : List Char} (h : (σ.skip isBlank).unread = c :: cs)
    (ho : c ≠ '(') (hc : c ≠ ')') : Passes σ (σ.skip isBlank).next :=
  ⟨_, σ.moves_blanks.trans (moves_next h ho hc), c,
    List.mem_append_right _ List.mem_cons_self, isBlank_of_skip h⟩

end Scanner

end Keystream
