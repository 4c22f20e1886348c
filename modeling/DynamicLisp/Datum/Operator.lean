/-! The native operators of the language and their names. -/
namespace DynamicLisp

/-- The kinds of value that programs can ask for and that operators insist on. -/
inductive Kind
  | number | bool | string | symbol | list | function | struct
deriving DecidableEq, Inhabited

namespace Kind

/-- The word for a value of the kind in messages. -/
def noun : Kind → String
  | number => "number"
  | bool => "bool"
  | string => "str"
  | symbol => "symbol"
  | list => "list"
  | function => "function"
  | struct => "struct"

/-- The predicate that tests for the kind. -/
def test : Kind → String
  | number => "num?"
  | bool => "bool?"
  | string => "str?"
  | symbol => "symbol?"
  | list => "cons?"
  | function => "lambda?"
  | struct => "struct?"

def all : List Kind := [number, bool, string, symbol, list, function, struct]

end Kind

inductive Trigonometric
  | sin | cos | tan | asin | acos | atan
deriving DecidableEq, Inhabited

namespace Trigonometric

def name : Trigonometric → String
  | sin => "sin"
  | cos => "cos"
  | tan => "tan"
  | asin => "asin"
  | acos => "acos"
  | atan => "atan"

def all : List Trigonometric := [sin, cos, tan, asin, acos, atan]

end Trigonometric

inductive Comparison
  | less | lessEqual | greater | greaterEqual
deriving DecidableEq, Inhabited

namespace Comparison

def name : Comparison → String
  | less => "<"
  | lessEqual => "<="
  | greater => ">"
  | greaterEqual => ">="

def all : List Comparison := [less, lessEqual, greater, greaterEqual]

end Comparison

/-- Operators whose result depends on their arguments alone. -/
inductive Operator
  | add | subtract | multiply | divide | modulo | sqrt | pow | log | fibonacci
  | list | cons | car | cdr | len | nth | append
  | compare (c : Comparison)
  | equal
  | and | or | not
  | begin
  | test (k : Kind)
  | trig (t : Trigonometric)
  | concat
  | parse
deriving DecidableEq, Inhabited

namespace Operator

def name : Operator → String
  | add => "+"
  | subtract => "-"
  | multiply => "*"
  | divide => "/"
  | modulo => "modulo"
  | sqrt => "sqrt"
  | pow => "pow"
  | log => "log"
  | fibonacci => "fibonacci"
  | list => "list"
  | cons => "cons"
  | car => "car"
  | cdr => "cdr"
  | len => "len"
  | nth => "nth"
  | append => "append"
  | compare c => c.name
  | equal => "eq?"
  | and => "and"
  | or => "or"
  | not => "not"
  | begin => "begin"
  | test k => k.test
  | trig t => t.name
  | concat => "concat"
  | parse => "parse"

end Operator

/-- Operators that receive the values of their arguments. -/
inductive Intrinsic
  | operator (o : Operator)
  | apply | eval | format | load
  | exit | print | println | readLine | readFile | writeFile
deriving DecidableEq, Inhabited

namespace Intrinsic

def name : Intrinsic → String
  | operator o => o.name
  | apply => "apply"
  | eval => "eval"
  | format => "format"
  | load => "import"
  | exit => "exit"
  | print => "print"
  | println => "println"
  | readLine => "read-line"
  | readFile => "read-file"
  | writeFile => "write-file"

/-- Every intrinsic, in the order in which they are installed. -/
def all : List Intrinsic :=
  [.add, .subtract, .multiply, .divide, .modulo, .sqrt, .pow, .log, .fibonacci,
    .list, .cons, .car, .cdr, .len, .nth, .append].map operator ++
  Comparison.all.map (operator ∘ .compare) ++
  [operator .equal, operator .and, operator .or, operator .not, operator .begin, apply, eval] ++
  Kind.all.map (operator ∘ .test) ++
  Trigonometric.all.map (operator ∘ .trig) ++
  [operator .concat, format, operator .parse,
    exit, print, println, readLine, load, readFile, writeFile]

def ofName? (name : String) : Option Intrinsic := all.find? (·.name == name)

end Intrinsic

/-- Operators that receive their form unevaluated. The last three come with a struct type. -/
inductive SpecialForm
  | define | lambda | conditional | branches | bindings | defineStruct
  | make (type : String)
  | isA (type : String)
  | access (type field : String)
deriving DecidableEq, Inhabited

namespace SpecialForm

def name : SpecialForm → String
  | define => "define"
  | lambda => "lambda"
  | conditional => "if"
  | branches => "cond"
  | bindings => "let"
  | defineStruct => "define-struct"
  | make type => "make-" ++ type
  | isA type => type ++ "?"
  | access type field => type ++ "-" ++ field

/-- The special forms that are there from the start. -/
def standard : List SpecialForm := [define, lambda, conditional, branches, bindings, defineStruct]

def ofName? (name : String) : Option SpecialForm := standard.find? (·.name == name)

end SpecialForm

end DynamicLisp
