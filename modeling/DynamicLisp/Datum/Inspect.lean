import DynamicLisp.Datum.Printer
import DynamicLisp.Text.Quoted

/-! Data as an inspected environment shows them, with their variants spelled out. -/
namespace DynamicLisp

open Text (inQuotes)

def inBrackets (texts : List String) : String := "[" ++ ", ".intercalate texts ++ "]"

def Symbol.inspect (s : Symbol) : String :=
  "Symbol(" ++ inQuotes s.name ++ (if s.variadic then ", variadic=True" else "") ++ ")"

namespace Datum

mutual

def inspect : Datum → String
  | bool b => if b then "True" else "False"
  | number x => Number.format .inspect x
  | string s => inQuotes s
  | symbol s => s.inspect
  | list items => inBrackets (inspects items)
  | quote d => "Quote(" ++ inspect d ++ ")"
  | nil => "Nil"
  | closure params variadic body => (closure params variadic body).display
  | intrinsic f => "<Intrinsic " ++ f.name ++ ">"
  | special f => "<SpecialForm " ++ f.name ++ ">"
  | struct type fields =>
    "StructInstance(" ++ inQuotes type ++ ", " ++ inBrackets (inspects fields) ++ ")"

def inspects : List Datum → List String
  | [] => []
  | d :: ds => inspect d :: inspects ds

end

end Datum

end DynamicLisp
