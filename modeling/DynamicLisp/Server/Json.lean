import DynamicLisp.Datum.Inspect
import DynamicLisp.Reader.Numeral
import DynamicLisp.Table

/-! JSON as clients send it. -/
namespace DynamicLisp

open Text (inQuotes)

inductive Json
  | null
  | bool (b : Bool)
  | integer (n : Int)
  | real (x : Float)
  | string (s : String)
  | array (items : List Json)
  | object (members : Table String Json)
deriving Inhabited

namespace Json

mutual

/-- How a message names a value. A string at the top is given as it is. -/
def inspect : Json → String
  | null => "None"
  | bool b => if b then "True" else "False"
  | integer n => Text.signedDecimal n
  | real x => Number.format .inspect x
  | string s => inQuotes s
  | array items => inBrackets (inspects items)
  | object ⟨members⟩ => "\x7b" ++ ", ".intercalate (inspectMembers members) ++ "\x7d"

def inspects : List Json → List String
  | [] => []
  | j :: js => inspect j :: inspects js

def inspectMembers : List (String × Json) → List String
  | [] => []
  | (name, j) :: ms => (inQuotes name ++ ": " ++ inspect j) :: inspectMembers ms

end

/-- A value in a message. -/
def text : Json → String
  | string s => s
  | j => j.inspect

def isSpace (c : Char) : Bool := c == ' ' || c == '\t' || c == '\n' || c == '\r'

def skipSpace (cs : List Char) : List Char := cs.dropWhile isSpace

/-- What is left of a text behind a word at its front. -/
def dropWord : List Char → List Char → Option (List Char)
  | [], cs => some cs
  | w :: ws, c :: cs => if w = c then dropWord ws cs else none
  | _ :: _, [] => none

def hexDigit? (c : Char) : Option Nat :=
  if '0' ≤ c && c ≤ '9' then some (c.toNat - '0'.toNat)
  else if 'a' ≤ c && c ≤ 'f' then some (c.toNat - 'a'.toNat + 10)
  else if 'A' ≤ c && c ≤ 'F' then some (c.toNat - 'A'.toNat + 10)
  else none

def hexValue? (cs : List Char) : Option Nat :=
  cs.foldlM (fun n c => (hexDigit? c).map (16 * n + ·)) 0

def unescapeChar? : Char → Option Char
  | '"' => some '"'
  | '\\' => some '\\'
  | '/' => some '/'
  | 'b' => some '\x08'
  | 'f' => some '\x0c'
  | 'n' => some '\n'
  | 'r' => some '\r'
  | 't' => some '\t'
  | _ => none

/-- The code units of a string, up to the quote that closes it, and what follows it. -/
def units : List Char → Option (List Nat × List Char)
  | [] => none
  | '"' :: cs => some ([], cs)
  | '\\' :: 'u' :: a :: b :: c :: d :: cs => do
    let u ← hexValue? [a, b, c, d]
    let (us, rest) ← units cs
    return (u :: us, rest)
  | '\\' :: c :: cs => do
    let d ← unescapeChar? c
    let (us, rest) ← units cs
    return (d.toNat :: us, rest)
  | c :: cs => do
    if c.toNat < 0x20 then none
    let (us, rest) ← units cs
    return (c.toNat :: us, rest)

def isHighHalf (u : Nat) : Bool := 0xd800 ≤ u && u < 0xdc00
def isLowHalf (u : Nat) : Bool := 0xdc00 ≤ u && u < 0xe000

/-- The character of a code unit. A half alone is none. -/
def unitChar? (u : Nat) : Option Char :=
  if isHighHalf u || isLowHalf u then none else some (Char.ofNat u)

/-- The characters of code units, where two halves make one character. No text can hold a half without
its other half, so units with such a half are refused. -/
def joinHalves : List Nat → Option (List Char)
  | [] => some []
  | [u] => do return [← unitChar? u]
  | u :: v :: us =>
    if isHighHalf u && isLowHalf v then do
      let c := Char.ofNat (0x10000 + (u - 0xd800) * 0x400 + (v - 0xdc00))
      return c :: (← joinHalves us)
    else do
      let c ← unitChar? u
      return c :: (← joinHalves (v :: us))

/-- The rest of a string behind its opening quote. -/
def stringBody (cs : List Char) : Option (String × List Char) := do
  let (us, rest) ← units cs
  let text ← joinHalves us
  return (String.ofList text, rest)

def isNumberChar (c : Char) : Bool :=
  c.isDigit || c == '-' || c == '+' || c == '.' || c == 'e' || c == 'E'

/-- Whether a numeral is one of JSON: without a plus in front, with digits on both sides of its
point, and with a leading zero only where that is all of the whole part. -/
def isStrict (cs : List Char) (n : Numeral) : Bool :=
  cs.head? != some '+' && !n.whole.isEmpty && (n.whole.head? != some '0' || n.whole.length == 1) &&
    (!cs.contains '.' || !n.fraction.isEmpty)

/-- A number: an integer unless it has a fraction or an exponent. -/
def ofNumber? (cs : List Char) : Option Json :=
  match Numeral.ofText? cs with
  | none => none
  | some n =>
    if !isStrict cs n then none
    else if cs.any fun c => c == '.' || c == 'e' || c == 'E' then some (real n.value)
    else
      let size : Int := Text.digitsValue n.whole
      some (integer (if n.negative then -size else size))

def words : List (String × Json) :=
  [("null", null), ("true", bool true), ("false", bool false), ("NaN", real (0.0 / 0.0)),
    ("Infinity", real (1.0 / 0.0)), ("-Infinity", real (-1.0 / 0.0))]

/-- A value that is not made of other values. -/
def scalar (cs : List Char) : Option (Json × List Char) :=
  match words.findSome? fun (w, j) => (dropWord w.toList cs).map (j, ·) with
  | some r => some r
  | none => (ofNumber? (cs.takeWhile isNumberChar)).map (·, cs.dropWhile isNumberChar)

mutual

/-- Reads a value from the front of a text. Of several members of one name the last one counts, in
the place of the first. The number bounds the nesting; twice the length of the
text is enough. -/
def value : Nat → List Char → Option (Json × List Char)
  | 0, _ => none
  | size + 1, cs =>
    match skipSpace cs with
    | '"' :: cs => (stringBody cs).map fun (s, rest) => (string s, rest)
    | '[' :: cs =>
      match skipSpace cs with
      | ']' :: cs => some (array [], cs)
      | cs => (elements size cs).map fun (js, rest) => (array js, rest)
    | '\x7b' :: cs =>
      match skipSpace cs with
      | '\x7d' :: cs => some (object .empty, cs)
      | cs => (members size cs).map fun (ms, rest) => (object (.update .empty ms), rest)
    | cs => scalar cs

/-- Reads the items of an array and the bracket behind them. -/
def elements : Nat → List Char → Option (List Json × List Char)
  | 0, _ => none
  | size + 1, cs => do
    let (j, cs) ← value size cs
    match skipSpace cs with
    | ',' :: cs =>
      let (js, rest) ← elements size cs
      return (j :: js, rest)
    | ']' :: cs => return ([j], cs)
    | _ => none

/-- Reads the members of an object and the brace behind them. -/
def members : Nat → List Char → Option (List (String × Json) × List Char)
  | 0, _ => none
  | size + 1, cs =>
    match skipSpace cs with
    | '"' :: cs => do
      let (name, cs) ← stringBody cs
      match skipSpace cs with
      | ':' :: cs =>
        let (j, cs) ← value size cs
        match skipSpace cs with
        | ',' :: cs =>
          let (ms, rest) ← members size cs
          return ((name, j) :: ms, rest)
        | '\x7d' :: cs => return ([(name, j)], cs)
        | _ => none
      | _ => none
    | _ => none

end

/-- Reads a text that holds one value and nothing else. -/
def ofText? (s : String) : Option Json :=
  match value (2 * s.length + 1) s.toList with
  | some (j, rest) => if skipSpace rest = [] then some j else none
  | none => none

end Json

end DynamicLisp
