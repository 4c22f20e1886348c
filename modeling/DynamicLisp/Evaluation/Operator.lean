import DynamicLisp.Datum.Conversion
import DynamicLisp.Datum.Equality
import DynamicLisp.Evaluation.Action
import DynamicLisp.Evaluation.Arguments
import DynamicLisp.Number.Arithmetic
import DynamicLisp.Reader.Script

/-! The operators whose result depends on their arguments alone. Arguments are checked from left to
right, after their number. -/
namespace DynamicLisp

open Arguments (one two)

/-- Folds numbers; the first argument that is no number is the failure. -/
def foldNumbers (f : Float → Float → Float) (start : Float) (args : List Datum) :
    Except LispError Float :=
  args.foldlM (fun total d => return f total (← Arguments.number d)) start

/-- An operator that folds the other arguments into the first, and has a meaning of its own for a
single argument. -/
def foldFirst (single : Float → Float) (f : Float → Float → Float) :
    List Datum → Except LispError Float
  | [] => .error (.arity .atLeast 1 0)
  | [d] => single <$> Arguments.number d
  | d :: ds => do foldNumbers f (← Arguments.number d) ds

def numberPair (args : List Datum) : Except LispError (Float × Float) := do
  let (a, b) ← two args
  return (← Arguments.number a, ← Arguments.number b)

def onNumber (f : Float → Float) (args : List Datum) : Except LispError Float := do
  return f (← Arguments.number (← one args))

def Trigonometric.apply : Trigonometric → Float → Float
  | sin => Float.sin
  | cos => Float.cos
  | tan => Float.tan
  | asin => Float.asin
  | acos => Float.acos
  | atan => Float.atan

def Comparison.apply : Comparison → Float → Float → Bool
  | less, a, b => decide (a < b)
  | lessEqual, a, b => decide (a ≤ b)
  | greater, a, b => decide (b < a)
  | greaterEqual, a, b => decide (b ≤ a)

def compareNumbers (c : Comparison) (args : List Datum) : Except LispError Bool := do
  match ← two args with
  | (.number a, .number b) => return c.apply a b
  | (a, b) => throw (.incomparable a.display b.display)

def boolPair (args : List Datum) : Except LispError (Bool × Bool) := do
  let (a, b) ← two args
  return (← Arguments.bool a, ← Arguments.bool b)

/-- The logarithm of a number, natural or in a given base. -/
def logarithm : List Datum → Except LispError Float
  | [] => .error (.arity .atLeast 1 0)
  | [d] => return Number.logarithm (← Arguments.number d)
  | [d, base] => do
    let x ← Arguments.number d
    let b ← Arguments.number base
    return Number.logarithm x / Number.logarithm b
  | ds => .error (.arity .atMost 2 ds.length)

/-- A Fibonacci number, rounded once from its exact value. -/
def fibonacciNumber (args : List Datum) : Except Stop Float := do
  let d ← one args
  let x ← Arguments.number d
  if Number.isNatural x then
    let r := Number.ofNat (Number.fibonacci (Number.wholePart x))
    if Number.isFinite r then return r else throw .overflow
  else throw (.error (.notNatural (Number.toText x)))

def listCell (empty : LispError) (args : List Datum) : Except LispError (Datum × List Datum) := do
  match ← Arguments.list (← one args) with
  | [] => throw empty
  | d :: ds => return (d, ds)

/-- An element of a list by its place, counted from zero. An empty list has the empty list at every
place. -/
def element (args : List Datum) : Except LispError Datum := do
  let (xs, index) ← two args
  let items ← Arguments.list xs
  let i ← Arguments.number index
  if items.isEmpty then return .empty
  if !Number.isIntegral i then throw .indexNotInteger
  let outside := LispError.indexOutOfRange (Number.toText i) xs.display
  if !Number.isNatural i then throw outside
  match items[Number.wholePart i]? with
  | some d => return d
  | none => throw outside

def appendLists (args : List Datum) : Except LispError (List Datum) := do
  return (← args.mapM Arguments.list).flatten

def concatenate (args : List Datum) : String := String.join (args.map Datum.display)

/-- The expressions of a source text. -/
def readSource (text : List Char) : Except LispError (List Datum) :=
  (readChars text).mapError .malformed

/-- The first expression of a text, as a value. -/
def parseValue (args : List Datum) : Except LispError Datum := do
  let text ← Arguments.string (← one args)
  match ← readSource text.toList with
  | [] => throw (.malformed .noExpression)
  | d :: _ => return d.toValue

/-- The result of an operator. -/
def Operator.run (args : List Datum) : Operator → Except Stop Datum
  | add => do return .number (← foldNumbers (· + ·) 0.0 args)
  | subtract => do return .number (← foldFirst (-·) (· - ·) args)
  | multiply => do return .number (← foldNumbers (· * ·) 1.0 args)
  | divide => do return .number (← foldFirst (1.0 / ·) (· / ·) args)
  | modulo => do
    let (a, b) ← numberPair args
    return .number (Number.remainder a b)
  | sqrt => do return .number (← onNumber Number.squareRoot args)
  | pow => do
    let (a, b) ← numberPair args
    return .number (a.pow b)
  | log => do return .number (← logarithm args)
  | fibonacci => do return .number (← fibonacciNumber args)
  | list => return .list args
  | cons => do
    let (d, ds) ← two args
    return .list (d :: (← Arguments.list ds))
  | car => do
    let (d, _) ← listCell .carOfEmpty args
    return d
  | cdr => do
    let (_, ds) ← listCell .cdrOfEmpty args
    return .list ds
  | len => do
    let items ← Arguments.list (← one args)
    return .number (Number.ofNat items.length)
  | nth => element args
  | append => do return .list (← appendLists args)
  | compare c => do return .bool (← compareNumbers c args)
  | equal => do
    let (a, b) ← two args
    match a.equal? b with
    | some r => return .bool r
    | none => throw .endless
  | and => do
    let (a, b) ← boolPair args
    return .bool (a && b)
  | or => do
    let (a, b) ← boolPair args
    return .bool (a || b)
  | not => do
    let b ← Arguments.bool (← one args)
    return .bool (!b)
  | begin => return args.getLast?.getD .empty
  | test k => do
    let d ← one args
    return .bool (d.isOf k)
  | trig t => do return .number (← onNumber t.apply args)
  | concat => return .string (concatenate args)
  | parse => parseValue args

end DynamicLisp
