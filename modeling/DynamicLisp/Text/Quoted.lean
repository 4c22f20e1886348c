import DynamicLisp.Text.Printable

/-! Texts in quotes, as messages and inspected values show them. -/
namespace DynamicLisp.Text

/-- The number of a character in hexadecimal digits, behind a letter that tells how many. -/
def hexEscape (c : Char) : List Char :=
  let digits := Nat.toDigits 16 c.toNat
  let (letter, width) :=
    if c.toNat < 0x100 then ('x', 2) else if c.toNat < 0x10000 then ('u', 4) else ('U', 8)
  '\\' :: letter :: List.replicate (width - digits.length) '0' ++ digits

def escapeIn (quote c : Char) : List Char :=
  if c = quote ∨ c = '\\' then ['\\', c]
  else if c = '\n' then ['\\', 'n']
  else if c = '\r' then ['\\', 'r']
  else if c = '\t' then ['\\', 't']
  else if isPrintable c then [c]
  else hexEscape c

/-- A text in single quotes, or in double quotes if it holds single ones only. -/
def inQuotes (s : String) : String :=
  let cs := s.toList
  let quote := if cs.contains '\x27' && !cs.contains '"' then '"' else '\x27'
  String.ofList (quote :: cs.flatMap (escapeIn quote) ++ [quote])

end DynamicLisp.Text
