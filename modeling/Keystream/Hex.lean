/-!
# Hexadecimal numbers

Writing uses lower-case digits, either as few as the number needs or a fixed count with zeros in
front. Reading takes either case, one plus sign in front, and underscores between or after digits.
-/

namespace Keystream.Hex

def digit (d : Nat) : Char :=
  Char.ofNat (if d < 10 then 48 + d else 87 + d)

/-- The value of a digit of either case. -/
def value? (c : Char) : Option Nat :=
  if '0' ≤ c ∧ c ≤ '9' then some (c.toNat - 48)
  else if 'a' ≤ c ∧ c ≤ 'f' then some (c.toNat - 87)
  else if 'A' ≤ c ∧ c ≤ 'F' then some (c.toNat - 55)
  else none

theorem value?_digit {d : Nat} (h : d < 16) : value? (digit d) = some d := by
  have all : ∀ d : Fin 16, value? (digit d) = some d.val := by decide
  exact all ⟨d, h⟩

/-- The lowest `width` digits of `v`, highest first. -/
def fixed (width v : Nat) : List Char :=
  (List.range width).reverse.map fun k => digit (v >>> (4 * k) % 16)

@[simp] theorem length_fixed (width v : Nat) : (fixed width v).length = width := by
  simp [fixed]

/-- All digits of `v` without zeros in front, except for zero itself. -/
def text (v : Nat) : String :=
  String.ofList (fixed (v.log2 / 4 + 1) v)

/-- The digits without a leading plus sign; a sign that another one follows stays. -/
def dropSign : List Char → List Char
  | '+' :: '+' :: cs => '+' :: '+' :: cs
  | '+' :: cs => cs
  | cs => cs

/-- Appends the digits to the number read so far, passing over underscores. -/
def readDigits (v : Nat) : List Char → Option Nat
  | [] => some v
  | '_' :: cs => readDigits v cs
  | c :: cs =>
    match value? c with
    | some d => readDigits (16 * v + d) cs
    | none => none

/-- The number written in hexadecimal, if the first place holds a digit and every later one a digit
or an underscore. -/
def read? (cs : List Char) : Option Nat :=
  match dropSign cs with
  | [] => none
  | '_' :: _ => none
  | c :: cs => readDigits 0 (c :: cs)

end Keystream.Hex
