import DynamicLisp.Number.Decimal

/-! The text of a number, for programs and for inspection. -/
namespace DynamicLisp.Number

/-- How doubles are written apart from their digits. -/
structure Style where
  notANumber : String
  /-- Whether a whole number is written in full, without a fraction and without the sign of zero. -/
  wholeInFull : Bool
  /-- The leading places, first and last, that are written with a plain decimal point. -/
  plainFrom : Int
  plainTo : Int

/-- What `print` shows. -/
def Style.display : Style := ⟨"NaN", true, -3, 16⟩

/-- What an inspected scope shows. -/
def Style.inspect : Style := ⟨"nan", false, -3, 16⟩

def zeros (n : Nat) : String := String.ofList (List.replicate n '0')

/-- Digits with a decimal point after the first `place` of them. -/
def plain (digits : List Char) (place : Int) : String :=
  match place with
  | .ofNat n =>
    if digits.length ≤ n then String.ofList digits ++ zeros (n - digits.length) ++ ".0"
    else String.ofList (digits.take n) ++ (if n = 0 then "0." else ".") ++
      String.ofList (digits.drop n)
  | .negSucc n => "0." ++ zeros (n + 1) ++ String.ofList digits

/-- One digit, the others after a point, and an exponent of at least two digits. -/
def scientific (digits : List Char) (place : Int) : String :=
  let e := place - 1
  let body := match digits with
    | d :: r :: rest => String.ofList (d :: '.' :: r :: rest)
    | ds => String.ofList ds
  let size := Nat.repr e.natAbs
  body ++ (if e < 0 then "e-" else "e+") ++ (if e.natAbs < 10 then "0" else "") ++ size

/-- The text of a positive or zero finite double, given by its word. -/
def formatMagnitude (s : Style) (w : Nat) : String :=
  let g := grainsOf w
  if s.wholeInFull && g % grainsInOne == 0 then Nat.repr (g / grainsInOne)
  else if g = 0 then "0.0"
  else
    let d := shortest w
    let digits := Nat.toDigits 10 d.digits
    if s.plainFrom ≤ d.point && d.point ≤ s.plainTo then plain digits d.point
    else scientific digits d.point

def format (s : Style) (x : Float) : String :=
  if x.isNaN then s.notANumber
  else
    let body := if isFinite x then formatMagnitude s (magnitude x) else "inf"
    if isNegative x && !(s.wholeInFull && magnitude x == 0) then "-" ++ body else body

/-- The text of a number in programs: whole numbers in full, others by the fewest digits that are
read back. -/
def toText (x : Float) : String := format .display x

end DynamicLisp.Number
