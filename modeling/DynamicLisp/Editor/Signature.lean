/-! The shapes of calls of the operators that are always there. -/
namespace DynamicLisp.Editor

def signatures : List (String × String) :=
  [("define", "(define name value) | (define (name params...) body...)"),
    ("lambda", "(lambda (params... rest...) body)"),
    ("if", "(if test then else)"),
    ("cond", "(cond (test value) ... (else value))"),
    ("let", "(let ((name value) ...) body)"),
    ("define-struct", "(define-struct Name (fields...))"),
    ("+", "(+ nums...)"),
    ("-", "(- x nums...)"),
    ("*", "(* nums...)"),
    ("/", "(/ x nums...)"),
    ("modulo", "(modulo a b)"),
    ("sqrt", "(sqrt x)"),
    ("pow", "(pow a b)"),
    ("log", "(log x base)"),
    ("fibonacci", "(fibonacci n)"),
    ("sin", "(sin x)"),
    ("cos", "(cos x)"),
    ("tan", "(tan x)"),
    ("asin", "(asin x)"),
    ("acos", "(acos x)"),
    ("atan", "(atan x)"),
    ("num?", "(num? v)"),
    ("bool?", "(bool? v)"),
    ("str?", "(str? v)"),
    ("symbol?", "(symbol? v)"),
    ("cons?", "(cons? v)"),
    ("lambda?", "(lambda? v)"),
    ("struct?", "(struct? v)"),
    ("cons", "(cons x xs)"),
    ("car", "(car xs)"),
    ("cdr", "(cdr xs)"),
    ("list", "(list xs...)"),
    ("len", "(len xs)"),
    ("nth", "(nth xs i)"),
    ("append", "(append lists...)"),
    ("<", "(< a b)"),
    ("<=", "(<= a b)"),
    (">", "(> a b)"),
    (">=", "(>= a b)"),
    ("eq?", "(eq? a b)"),
    ("and", "(and a b)"),
    ("or", "(or a b)"),
    ("not", "(not b)"),
    ("begin", "(begin exprs...)"),
    ("apply", "(apply f xs)"),
    ("eval", "(eval v)"),
    ("concat", "(concat values...)"),
    ("format", "(format template)"),
    ("parse", "(parse text)"),
    ("print", "(print values...)"),
    ("println", "(println values...)"),
    ("read-line", "(read-line)"),
    ("import", "(import path)"),
    ("read-file", "(read-file path)"),
    ("write-file", "(write-file path contents)"),
    ("exit", "(exit code)")]

end DynamicLisp.Editor
