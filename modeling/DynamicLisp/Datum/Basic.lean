import DynamicLisp.Datum.Operator

/-! Data: one type for the expressions that are evaluated and for the values that result. -/
namespace DynamicLisp

/-- An identifier. The variadic mark is a trailing `...` in its written form, and only the last
parameter of a function makes use of it. -/
structure Symbol where
  name : String
  variadic : Bool := false
deriving DecidableEq, Inhabited

/-- The written form of a symbol. -/
def Symbol.text (s : Symbol) : String := if s.variadic then s.name ++ "..." else s.name

/-- Expressions and values. A closure keeps no environment: the free identifiers of its body are
looked up where it is called. `quote` and `nil` stand in expressions only. -/
inductive Datum
  | bool (b : Bool)
  | number (x : Float)
  | string (s : String)
  | symbol (s : Symbol)
  | list (items : List Datum)
  | quote (d : Datum)
  | nil
  | closure (params : List String) (variadic : Bool) (body : Datum)
  | intrinsic (f : Intrinsic)
  | special (f : SpecialForm)
  | struct (type : String) (fields : List Datum)
deriving Inhabited

namespace Datum

/-- The empty list, which also stands for no meaningful result. -/
def empty : Datum := list []

/-- A symbol without the variadic mark. -/
def name (s : String) : Datum := symbol ⟨s, false⟩

def kind? : Datum → Option Kind
  | bool _ => some .bool
  | number _ => some .number
  | string _ => some .string
  | symbol _ => some .symbol
  | list _ => some .list
  | closure .. | intrinsic _ => some .function
  | struct .. => some .struct
  | quote _ | nil | special _ => none

/-- Whether a value is of a kind. Special forms are not functions here. -/
def isOf (k : Kind) (d : Datum) : Bool := d.kind? == some k

end Datum

end DynamicLisp
