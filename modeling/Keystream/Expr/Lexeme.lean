import Keystream.Blank

/-!
# Lexemes of expressions

The letter x and the digits directly after it are one token; every other character that is not blank
is a token of its own. A lexeme is a token with the byte offset of its first character.
-/

namespace Keystream

inductive Token where
  | zero
  | one
  | plus
  | opening
  | closing
  | var (digits : List Char)
  | stray (c : Char)
  deriving DecidableEq

namespace Token

/-- The token of a character that starts no variable. -/
def ofChar (c : Char) : Token :=
  if c = '0' then zero
  else if c = '1' then one
  else if c = '+' then plus
  else if c = '(' then opening
  else if c = ')' then closing
  else stray c

def head : Token → Char
  | zero => '0'
  | one => '1'
  | plus => '+'
  | opening => '('
  | closing => ')'
  | var _ => 'x'
  | stray c => c

def text : Token → List Char
  | var digits => 'x' :: digits
  | t => [t.head]

theorem head_ofChar (c : Char) : (ofChar c).head = c := by
  unfold ofChar
  repeat' split
  all_goals simp_all [head]

def startsFactor : Token → Bool
  | zero | one | var _ | opening => true
  | plus | closing | stray _ => false

end Token

structure Lexeme where
  token : Token
  position : Nat
  deriving DecidableEq

theorem length_dropWhile_le {α : Type} (p : α → Bool) (l : List α) :
    (l.dropWhile p).length ≤ l.length := by
  induction l with
  | nil => exact Nat.le_refl _
  | cons a l ih =>
    rw [List.dropWhile_cons]
    split
    · exact Nat.le_succ_of_le ih
    · exact Nat.le_refl _

/-- The lexemes of a text whose first character stands at `position`. -/
def lexemes (position : Nat) : List Char → List Lexeme
  | [] => []
  | c :: cs =>
    if c = 'x' then
      let digits := cs.takeWhile Char.isDigit
      ⟨.var digits, position⟩ ::
        lexemes (position + 1 + digits.length) (cs.dropWhile Char.isDigit)
    else if isBlank c then lexemes (position + c.utf8Size) cs
    else ⟨.ofChar c, position⟩ :: lexemes (position + c.utf8Size) cs
termination_by cs => cs.length
decreasing_by
  · exact Nat.lt_succ_of_le (length_dropWhile_le Char.isDigit cs)
  · exact Nat.lt_succ_self _
  · exact Nat.lt_succ_self _

end Keystream
