import DynamicLisp.Text.Digit
import DynamicLisp.Number.Decimal

/-! Written numbers. -/
namespace DynamicLisp

/-- A number as it is written. The digits may be those of any script. -/
structure Numeral where
  negative : Bool
  whole : List Char
  fraction : List Char
  exponent : Int

namespace Numeral

/-- Takes a sign from the front, and tells whether it is a minus. -/
def sign : List Char → Bool × List Char
  | '-' :: cs => (true, cs)
  | '+' :: cs => (false, cs)
  | cs => (false, cs)

/-- The digits after a decimal point, and what follows them. -/
def fractionOf : List Char → List Char × List Char
  | '.' :: cs => cs.span Text.isDigit
  | cs => ([], cs)

/-- Reads an exponent that reaches to the end of the text; no text at all is the exponent zero. -/
def exponent? : List Char → Option Int
  | [] => some 0
  | c :: cs =>
    let (negative, digits) := sign cs
    if (c = 'e' ∨ c = 'E') ∧ digits ≠ [] ∧ digits.all Text.isDigit then
      some (if negative then -(Text.digitsValue digits : Int) else Text.digitsValue digits)
    else none

/-- An optional sign, digits with at most one decimal point among them, and an optional
exponent. -/
def ofText? (cs : List Char) : Option Numeral :=
  let (negative, cs) := sign cs
  let (whole, cs) := cs.span Text.isDigit
  let (fraction, cs) := fractionOf cs
  if whole = [] ∧ fraction = [] then none
  else (exponent? cs).map fun e => ⟨negative, whole, fraction, e⟩

/-- The size of the number, without its sign. -/
def decimal (n : Numeral) : Number.Decimal :=
  ⟨Text.digitsValue (n.whole ++ n.fraction), n.exponent - n.fraction.length⟩

/-- The nearest double. -/
def value (n : Numeral) : Float := Number.ofMagnitude n.negative n.decimal.toWord

end Numeral

end DynamicLisp
