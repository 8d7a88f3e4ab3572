import Keystream.Hex

/-!
# Causes of failure

`ParseError` says why a text is no expression and at which byte of it, `Error` why a vector, a
register, a table or a function cannot be built or applied. Each cause carries what its message
shows.
-/

namespace Keystream

/-- Why a text is not an expression. Positions are byte offsets in the UTF-8 text. -/
inductive ParseError where
  | empty
  | unexpectedToken (token : Char) (position : Nat)
  | unexpectedEnd (position : Nat)
  | unclosedParenthesis (position : Nat)
  | nestingTooDeep (position max : Nat)
  | missingIndex (position : Nat)
  | variableOutOfRange (digits : List Char) (position min max : Nat)
  deriving DecidableEq

def ParseError.message : ParseError → String
  | empty => "Empty expression"
  | unexpectedToken token position =>
    "Unexpected token '" ++ String.singleton token ++ s!"' at position {position}"
  | unexpectedEnd position => s!"Unexpected end of expression at position {position}"
  | unclosedParenthesis position => s!"Unclosed parenthesis opened at position {position}"
  | nestingTooDeep position max =>
    s!"Parentheses nested deeper than {max} levels at position {position}"
  | missingIndex position => s!"Missing variable index after 'x' at position {position}"
  | variableOutOfRange digits position min max =>
    "Variable x" ++ String.ofList digits ++
      s!" at position {position} out of range, must be in x{min}..=x{max}"

inductive Error where
  | indexOutOfRange (index length : Nat)
  | inputOutOfRange (input max : Nat)
  | invalidBit (value : Nat)
  | lengthMismatch (expected actual : Nat)
  | emptyRegister
  | tooWideForWord (length : Nat)
  | noVariables
  | tooManyVariables (max : Nat)
  | monomialOutOfRange (monomial : UInt64) (arity : Nat)
  | wrongTableLength (expected actual : Nat)
  | tableTooLarge
  | wrongHexLength
  | invalidHex
  | parse (cause : ParseError)
  | sumArityMismatch
  | productArityMismatch
  deriving DecidableEq

def Error.message : Error → String
  | indexOutOfRange index length => s!"Index {index} out of range for length {length}"
  | inputOutOfRange input max => s!"Input {input} out of range, must be <= {max}"
  | invalidBit value => s!"Bit value must be 0 or 1, got {value}"
  | lengthMismatch expected actual => s!"Expected a vector of length {expected}, got {actual}"
  | emptyRegister => "Register length must be positive"
  | tooWideForWord length => s!"Length {length} exceeds the 64 bits of an u64"
  | noVariables => "Variable count must be positive"
  | tooManyVariables max => s!"Too big variable count, must be <= {max}"
  | monomialOutOfRange monomial arity =>
    "Monomial 0x" ++ Hex.text monomial.toNat ++ s!" uses variables outside of arity {arity}"
  | wrongTableLength expected actual =>
    s!"Truth table must have {expected} entries, got {actual}"
  | tableTooLarge => "Truth table is too big for variables count"
  | wrongHexLength => "Hex truth table length must be a power of 2"
  | invalidHex => "Error parsing string hex number"
  | parse cause => cause.message
  | sumArityMismatch =>
    "XOR operation requires the same number of variables in both term tables"
  | productArityMismatch =>
    "AND operation requires the same number of variables in both term tables"

end Keystream
