import DynamicLisp.Number.Binary

/-! Decimals and doubles: the double nearest to a decimal, and the shortest decimal that is read
back as a given double. -/
namespace DynamicLisp.Number

/-- The number `digits * 10 ^ exponent`. -/
structure Decimal where
  digits : Nat
  exponent : Int
deriving DecidableEq, Inhabited

namespace Decimal

/-- How many digits the whole number has. -/
def width (d : Decimal) : Nat := (Nat.toDigits 10 d.digits).length

/-- Places of the leading digit far above or below those of any double, where the answer is known
without the power of ten. -/
def horizon : Int := 400

/-- The word of the nearest double. -/
def toWord (d : Decimal) : Nat :=
  if d.digits = 0 then 0
  else if horizon < d.exponent + d.width then infinityWord
  else if d.exponent + d.width < -horizon then 0
  else match d.exponent with
    | .ofNat e => nearestWord (d.digits * Nat.pow 10 e) 1
    | .negSucc e => nearestWord d.digits (Nat.pow 10 (e + 1))

/-- Moves up to `k` zeros from the end of the digits into the exponent. -/
def stripUpTo : Nat → Decimal → Decimal
  | 0, d => d
  | k + 1, d =>
    if d.digits % 10 = 0 ∧ d.digits ≠ 0 then stripUpTo k ⟨d.digits / 10, d.exponent + 1⟩ else d

def strip (d : Decimal) : Decimal := stripUpTo d.width d

/-- The place of the leading digit: one for the units, zero for the tenths. -/
def point (d : Decimal) : Int := d.exponent + d.width

end Decimal

/-- The value of `g` grains in units of `10 ^ e`, as a quotient. -/
def inUnits (g : Nat) : Int → Nat × Nat
  | .ofNat e => (g, grainsInOne * Nat.pow 10 e)
  | .negSucc e => (g * Nat.pow 10 (e + 1), grainsInOne)

/-- The place of the leading digit of `g` grains, as in `Decimal.point`. -/
def leadingPlace (g : Nat) : Int :=
  if grainsInOne ≤ g then (Nat.toDigits 10 (g / grainsInOne)).length
  else match (List.range 324).find? fun k => grainsInOne ≤ g * Nat.pow 10 (k + 1) with
    | some k => -(k : Int)
    | none => -324

/-- The decimal on the grid of `10 ^ e` that is read back as the word `w` of `g` grains: of the two
neighbours on the grid the nearer one that is, a tie going to the even digit. -/
def onGrid? (w g : Nat) (e : Int) : Option Decimal :=
  let (n, d) := inUnits g e
  let reads (k : Nat) : Bool := Decimal.toWord ⟨k, e⟩ == w
  let low := n / d
  match reads low, reads (low + 1) with
  | true, true => some ⟨roundQuotient n d, e⟩
  | true, false => some ⟨low, e⟩
  | false, true => some ⟨low + 1, e⟩
  | false, false => none

/-- All digits of `g` grains. -/
def exact (g : Nat) : Decimal := ⟨g * Nat.pow 5 1074, -1074⟩

/-- The shortest decimal that is read back as the double with word `w`, and the nearest to it of
the shortest ones. Seventeen digits are always enough. -/
def shortest (w : Nat) : Decimal :=
  let g := grainsOf w
  let place := leadingPlace g
  match (List.range 17).findSome? fun (k : Nat) => onGrid? w g (place - (k + 1)) with
  | some d => d.strip
  | none => (exact g).strip

end DynamicLisp.Number
