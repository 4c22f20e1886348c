/-! Doubles as exact numbers. A finite double is a whole number of grains, the least positive
double being one grain, and a quotient of natural numbers has a nearest double. -/
namespace DynamicLisp.Number

/-- How many grains make one: the least positive double is `2 ^ (-1074)`. -/
def grainsInOne : Nat := Nat.pow 2 1074

/-- The word of positive infinity; the words of finite doubles without sign are below it. -/
def infinityWord : Nat := 0x7ff0000000000000

def isNegative (x : Float) : Bool := decide (Nat.pow 2 63 ≤ x.toBits.toNat)

/-- The word of a double without its sign bit. -/
def magnitude (x : Float) : Nat := x.toBits.toNat % Nat.pow 2 63

def ofMagnitude (negative : Bool) (word : Nat) : Float :=
  Float.ofBits (UInt64.ofNat (if negative then Nat.pow 2 63 + word else word))

/-- The grains of a finite double, from its word without sign. -/
def grainsOf (word : Nat) : Nat :=
  if word < Nat.pow 2 52 then word
  else (Nat.pow 2 52 + word % Nat.pow 2 52) * Nat.pow 2 (word / Nat.pow 2 52 - 1)

def grains (x : Float) : Nat := grainsOf (magnitude x)

def isFinite (x : Float) : Bool := decide (magnitude x < infinityWord)

def isIntegral (x : Float) : Bool := isFinite x && grains x % grainsInOne == 0

/-- The whole part of a finite double, its sign left out. -/
def wholePart (x : Float) : Nat := grains x / grainsInOne

/-- The whole part of a finite double, cut towards zero. -/
def truncate (x : Float) : Int := if isNegative x then -(wholePart x : Int) else wholePart x

/-- The natural number nearest to a quotient; a tie goes to the even one. -/
def roundQuotient (n d : Nat) : Nat :=
  let q := n / d
  let r := n % d
  if 2 * r < d then q else if d < 2 * r then q + 1 else q + q % 2

/-- The word of the double nearest to the quotient of two numbers, a tie going to the even
mantissa. Quotients beyond the greatest double give infinity. A carry out of the mantissa moves
the exponent up, because the words of positive doubles are in the order of the doubles. -/
def nearestWord (n d : Nat) : Nat :=
  let shift := Nat.log2 (n * grainsInOne / d) - 52
  min infinityWord
    (shift * Nat.pow 2 52 + roundQuotient (n * grainsInOne) (d * Nat.pow 2 shift))

def nearest (n d : Nat) : Float := ofMagnitude false (nearestWord n d)

def ofNat (n : Nat) : Float := nearest n 1

end DynamicLisp.Number
