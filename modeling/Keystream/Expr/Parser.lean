import Keystream.Error
import Keystream.Expr.Basic
import Keystream.Expr.Lexeme

/-!
# Reading expressions

Each reader takes lexemes from the front of its input and gives back a tree with the lexemes after
it, fewer than it was given. The readers of factors, terms and sums are told how to read what stands
inside a parenthesis; `readGroup` ties them together and counts how many parentheses may still open.
-/

namespace Keystream

/-- How the first variable is called. -/
inductive Numbering where
  | fromZero
  | fromOne
  deriving DecidableEq

def Numbering.first : Numbering → Nat
  | fromZero => 0
  | fromOne => 1

/-- A value and the lexemes after it, of which there are fewer than `bound`. -/
structure Reading (α : Type) (bound : Nat) where
  value : α
  rest : List Lexeme
  rest_lt : rest.length < bound

abbrev Reader (α : Type) :=
  (input : List Lexeme) → Except ParseError (Reading α input.length)

namespace Expr

def maxNesting : Nat := 128

def decimal (digits : List Char) : Nat :=
  digits.foldl (fun v c => 10 * v + (c.toNat - '0'.toNat)) 0

/-- The variable with these digits after the letter x at `position`. -/
def readVariable (n : Nat) (numbering : Numbering) (digits : List Char) (position : Nat) :
    Except ParseError (Fin n) :=
  if digits = [] then .error (.missingIndex position)
  else if h : numbering.first ≤ decimal digits ∧ decimal digits < numbering.first + n then
    .ok ⟨decimal digits - numbering.first, by omega⟩
  else .error (.variableOutOfRange digits position numbering.first (numbering.first + n - 1))

section Readers

variable {n : Nat} (numbering : Numbering) (stop : Nat) (inside : Nat → Reader (Expr n .sum))

/-- Reads one factor. The text ends at byte `stop`, and `inside` reads the sum behind an opening
parenthesis at a position. -/
def readFactor : Reader (Expr n .factor)
  | [] => .error (.unexpectedEnd stop)
  | ⟨.zero, _⟩ :: rest => .ok ⟨.const false, rest, Nat.lt_succ_self _⟩
  | ⟨.one, _⟩ :: rest => .ok ⟨.const true, rest, Nat.lt_succ_self _⟩
  | ⟨.var digits, position⟩ :: rest =>
    match readVariable n numbering digits position with
    | .error e => .error e
    | .ok i => .ok ⟨.var i, rest, Nat.lt_succ_self _⟩
  | ⟨.opening, position⟩ :: rest =>
    match inside position rest with
    | .error e => .error e
    | .ok ⟨_, [], _⟩ => .error (.unclosedParenthesis position)
    | .ok ⟨e, ⟨.closing, _⟩ :: after, h⟩ =>
      .ok ⟨.group e, after, Nat.lt_trans (Nat.lt_succ_self _) (Nat.lt_succ_of_lt h)⟩
    | .ok ⟨_, ⟨token, found⟩ :: _, _⟩ => .error (.unexpectedToken token.head found)
  | ⟨token, position⟩ :: _ => .error (.unexpectedToken token.head position)

/-- Whether the next lexeme can start a factor. -/
def atFactor : List Lexeme → Bool
  | [] => false
  | l :: _ => l.token.startsFactor

/-- Multiplies a product by all factors that follow. -/
def readFactors {bound : Nat} (p : Expr n .product) (input : List Lexeme)
    (h : input.length < bound) : Except ParseError (Reading (Expr n .product) bound) :=
  if atFactor input then
    match readFactor numbering stop inside input with
    | .error e => .error e
    | .ok ⟨f, rest, hr⟩ => readFactors (.mul p f) rest (Nat.lt_trans hr h)
  else .ok ⟨p, input, h⟩
termination_by input.length

def readProduct : Reader (Expr n .product) := fun input =>
  match readFactor numbering stop inside input with
  | .error e => .error e
  | .ok ⟨f, rest, h⟩ => readFactors numbering stop inside (.single f) rest h

/-- Adds to a sum all terms that follow, each behind a plus. -/
def readTerms {bound : Nat} (s : Expr n .sum) (input : List Lexeme) (h : input.length < bound) :
    Except ParseError (Reading (Expr n .sum) bound) :=
  match input with
  | ⟨.plus, _⟩ :: rest =>
    match readProduct numbering stop inside rest with
    | .error e => .error e
    | .ok ⟨p, after, ha⟩ =>
      readTerms (.add s p) after (Nat.lt_trans (Nat.lt_succ_of_lt ha) h)
  | input => .ok ⟨s, input, h⟩
termination_by input.length
decreasing_by exact Nat.lt_succ_of_lt ha

def readSum : Reader (Expr n .sum) := fun input =>
  match readProduct numbering stop inside input with
  | .error e => .error e
  | .ok ⟨p, rest, h⟩ => readTerms numbering stop inside (.term p) rest h

end Readers

/-- Reads the sum behind an opening parenthesis, inside which `room - 1` more may be open. -/
def readGroup {n : Nat} (numbering : Numbering) (stop : Nat) (room : Nat) (position : Nat) :
    Reader (Expr n .sum) :=
  match room with
  | 0 => fun _ => .error (.nestingTooDeep position maxNesting)
  | room + 1 => readSum numbering stop (readGroup numbering stop room)

/-- Reads lexemes to their end, in a text of `stop` bytes. -/
def ofLexemes (n : Nat) (numbering : Numbering) (stop : Nat) :
    List Lexeme → Except ParseError (Expr n .sum)
  | [] => .error .empty
  | l :: input =>
    match readSum numbering stop (readGroup numbering stop maxNesting) (l :: input) with
    | .error e => .error e
    | .ok ⟨e, [], _⟩ => .ok e
    | .ok ⟨_, ⟨token, position⟩ :: _, _⟩ => .error (.unexpectedToken token.head position)

def parse (n : Nat) (numbering : Numbering) (s : String) : Except ParseError (Expr n .sum) :=
  ofLexemes n numbering s.utf8ByteSize (lexemes 0 s.toList)

end Expr

end Keystream
