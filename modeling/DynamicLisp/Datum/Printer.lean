import DynamicLisp.Datum.Basic
import DynamicLisp.Number.Format

/-! The two texts of a datum: `source` can be read back, `display` is what programs print. They
differ in the strings that are reached through lists. -/
namespace DynamicLisp

/-- How a character stands inside a written string. -/
def escape : Char → List Char
  | '\\' => ['\\', '\\']
  | '"' => ['\\', '"']
  | '\n' => ['\\', 'n']
  | '\t' => ['\\', 't']
  | '\r' => ['\\', 'r']
  | c => [c]

/-- A string in double quotes. -/
def quoted (s : String) : String :=
  String.ofList ('"' :: s.toList.flatMap escape ++ ['"'])

/-- The texts of the items of a list, in parentheses and separated by single spaces. -/
def inParens (texts : List String) : String := "(" ++ " ".intercalate texts ++ ")"

/-- The parameter list of a closure between its parentheses. -/
def showParams (params : List String) (variadic : Bool) : String :=
  " ".intercalate params ++ if variadic && !params.isEmpty then "..." else ""

namespace Datum

mutual

def source : Datum → String
  | bool b => if b then "true" else "false"
  | number x => Number.toText x
  | string s => quoted s
  | symbol s => s.text
  | list items => inParens (sources items)
  | quote d => "'" ++ source d
  | nil => "'()"
  | closure params variadic body =>
    "(lambda (" ++ showParams params variadic ++ ") " ++ source body ++ ")"
  | intrinsic _ => "<function>"
  | special _ => "<procedure>"
  | struct type fields => "(make-" ++ type ++ displayFields fields ++ ")"

def sources : List Datum → List String
  | [] => []
  | d :: ds => source d :: sources ds

def display : Datum → String
  | bool b => if b then "true" else "false"
  | number x => Number.toText x
  | string s => s
  | symbol s => s.text
  | list items => inParens (displays items)
  | quote d => "'" ++ source d
  | nil => "'()"
  | closure params variadic body =>
    "(lambda (" ++ showParams params variadic ++ ") " ++ source body ++ ")"
  | intrinsic _ => "<function>"
  | special _ => "<procedure>"
  | struct type fields => "(make-" ++ type ++ displayFields fields ++ ")"

def displays : List Datum → List String
  | [] => []
  | d :: ds => display d :: displays ds

/-- The fields of a struct, each after a space. -/
def displayFields : List Datum → String
  | [] => ""
  | d :: ds => " " ++ display d ++ displayFields ds

end

theorem sources_eq_map (ds : List Datum) : sources ds = ds.map source := by
  induction ds with
  | nil => rfl
  | cons d ds ih => simp [sources, ih]

theorem displays_eq_map (ds : List Datum) : displays ds = ds.map display := by
  induction ds with
  | nil => rfl
  | cons d ds ih => simp [displays, ih]

end Datum

end DynamicLisp
