import DynamicLisp.Host.Path
import DynamicLisp.Text.Blank
import DynamicLisp.Text.Digit
import DynamicLisp.Text.Quoted
import DynamicLisp.Text.Upper

/-! Settings that the surroundings of the program may change. -/
namespace DynamicLisp.Settings

def languageName : String := "rlisp"

def languageVersion : String := "1.0.0"

/-- The source file that a library root is searched for. -/
def entryPoint : String := "loader.rl"

/-- Where the library that comes with the program is kept. -/
def bundledRoot : Path := ⟨.root, ["usr", "share", "rlisp", "lib"]⟩

/-- The library roots, separated by colons in the setting. Without one the bundled root is the only
one. -/
def libraryRoots (setting : Option String) : List Path :=
  match setting with
  | none | some "" => [bundledRoot]
  | some raw =>
    (((Text.splitWhere (· = ':') raw.toList).map Text.trim).filter (· ≠ [])).map
      fun part => Path.ofText (String.ofList part)

def logLevel (setting : Option String) : String := Text.upper (setting.getD "WARNING")

/-- The blanks that may stand around a whole number. -/
def isMargin (c : Char) : Bool :=
  c == ' ' || (0x9 ≤ c.toNat && c.toNat ≤ 0xd) || (0x80 ≤ c.toNat && Text.isBlank c)

/-- The digits of a whole number with single underscores between them taken out. -/
def groupedDigits? : List Char → Option (List Char)
  | [] => none
  | [c] => if Text.isDigit c then some [c] else none
  | c :: '_' :: cs => if Text.isDigit c then (groupedDigits? cs).map (c :: ·) else none
  | c :: cs => if Text.isDigit c then (groupedDigits? cs).map (c :: ·) else none

/-- What is wrong with the text of a whole number. -/
inductive NumberFault
  | malformed
  | tooLong (digits : Nat)
deriving DecidableEq, Inhabited

/-- The most digits that a whole number may have. -/
def maxDigits : Nat := 4300

def isDigitOrUnderscore (c : Char) : Bool := c == '_' || Text.isDigit c

/-- A whole number with an optional sign, blanks around it left out. Its digits are counted before
what stands behind them is looked at. -/
def wholeNumber (raw : String) : Except NumberFault Int :=
  let (negative, text) := match raw.toList.dropWhile isMargin with
    | '-' :: cs => (true, cs)
    | '+' :: cs => (false, cs)
    | cs => (false, cs)
  match groupedDigits? (text.takeWhile isDigitOrUnderscore) with
  | none => .error .malformed
  | some ds =>
    if maxDigits < ds.length then .error (.tooLong ds.length)
    else if !(text.dropWhile isDigitOrUnderscore).all isMargin then .error .malformed
    else .ok (if negative then -(Text.digitsValue ds : Int) else Text.digitsValue ds)

/-- The complaint about a setting that is no whole number, of which it shows the first part, or that
has too many digits. -/
def NumberFault.message (raw : String) : NumberFault → String
  | malformed =>
    "invalid literal for int() with base 10: " ++
      String.ofList ((Text.inQuotes raw).toList.take 200)
  | tooLong digits =>
    "Exceeds the limit (" ++ Text.decimal maxDigits ++
      " digits) for integer string conversion: value has " ++ Text.decimal digits ++
      " digits; use sys.set_int_max_str_digits() to increase the limit"

/-- How deep evaluations may nest, or a complaint. -/
def recursionLimit (setting : Option String) : Except String Int :=
  match setting with
  | none => .ok 20000
  | some raw => (wholeNumber raw).mapError (NumberFault.message raw)

end DynamicLisp.Settings
