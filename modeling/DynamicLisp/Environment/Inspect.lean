import DynamicLisp.Datum.Inspect
import DynamicLisp.Environment.Basic

/-! Environments as text, for looking at a running program. -/
namespace DynamicLisp

def Scope.inspect (s : Scope) : String :=
  "\x7b" ++ ", ".intercalate (s.entries.map fun (x, d) => x ++ ": " ++ d.inspect) ++ "\x7d"

namespace Environment

/-- The innermost scope, with a hint at those around it. -/
def summary (e : Environment) : String :=
  Scope.inspect e.innermost ++ if e.inner.isEmpty then "" else " -> ..."

/-- All scopes, the innermost first. -/
def inspect (e : Environment) : String :=
  "<Environment stack: " ++ " -> ".intercalate (e.scopes.map Scope.inspect) ++ ">"

end Environment

end DynamicLisp
