import DynamicLisp.Number.Binary

/-! Operations on doubles that are not among the arithmetic of the processor. -/
namespace DynamicLisp.Number

def notANumber : Float := 0.0 / 0.0

def infinity : Float := 1.0 / 0.0

/-- What is left of the first number when multiples of the second are taken away, with the sign of
the first. The result is exact. -/
def remainder (a b : Float) : Float :=
  if a.isNaN || b.isNaN || !isFinite a || magnitude b == 0 then notANumber
  else if !isFinite b then a
  else ofMagnitude (isNegative a) (nearestWord (grains a % grains b) grainsInOne)

def squareRoot (x : Float) : Float := if 0.0 ≤ x then x.sqrt else notANumber

/-- The natural logarithm; negative infinity at both zeros, no number below them. -/
def logarithm (x : Float) : Float :=
  if x == 0.0 then -infinity else if x < 0.0 then notANumber else x.log

/-- Whether a number is a whole number and not below zero. -/
def isNatural (x : Float) : Bool := isIntegral x && decide (0.0 ≤ x)

/-- The first two of the Fibonacci numbers that start `n` places on. -/
def fibonacciPair : Nat → Nat × Nat
  | 0 => (0, 1)
  | n + 1 => let (a, b) := fibonacciPair n; (b, a + b)

def fibonacci (n : Nat) : Nat := (fibonacciPair n).1

/-- The least and the greatest exit code. -/
def exitCodeMin : Int := -0x80000000
def exitCodeMax : Int := 0x7fffffff

/-- The code with which a program ends that asks for a number: cut towards zero and kept in the
range of 32 bits. -/
def exitCode (x : Float) : Int :=
  if x.isNaN then 0
  else if !isFinite x then if isNegative x then exitCodeMin else exitCodeMax
  else max exitCodeMin (min exitCodeMax (truncate x))

end DynamicLisp.Number
