import DynamicLisp.Datum.Printer
import DynamicLisp.Error

/-! What operators insist on in their arguments. -/
namespace DynamicLisp.Arguments

def expect (n : Nat) (args : List Datum) : Except LispError Unit :=
  if args.length = n then .ok () else .error (.arity .exact n args.length)

def one (args : List Datum) : Except LispError Datum :=
  match args with
  | [a] => .ok a
  | _ => .error (.arity .exact 1 args.length)

def two (args : List Datum) : Except LispError (Datum × Datum) :=
  match args with
  | [a, b] => .ok (a, b)
  | _ => .error (.arity .exact 2 args.length)

def number : Datum → Except LispError Float
  | .number x => .ok x
  | d => .error (.notA .number d.display)

def string : Datum → Except LispError String
  | .string s => .ok s
  | d => .error (.notA .string d.display)

def list : Datum → Except LispError (List Datum)
  | .list items => .ok items
  | d => .error (.notA .list d.display)

def bool : Datum → Except LispError Bool
  | .bool b => .ok b
  | d => .error (.notA .bool d.display)

end DynamicLisp.Arguments
