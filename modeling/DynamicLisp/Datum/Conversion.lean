import DynamicLisp.Datum.Basic
import DynamicLisp.Error

/-! Expressions as values, and values as expressions. -/
namespace DynamicLisp.Datum

mutual

/-- The value that a quoted expression stands for: quotations are taken off at every depth, and
the nil marker is the empty list. -/
def toValue : Datum → Datum
  | quote d => toValue d
  | nil => list []
  | list items => list (toValues items)
  | d => d

def toValues : List Datum → List Datum
  | [] => []
  | d :: ds => toValue d :: toValues ds

end

theorem toValues_eq_map (ds : List Datum) : toValues ds = ds.map toValue := by
  induction ds with
  | nil => rfl
  | cons d ds ih => simp [toValues, ih]

/-- The parameters of a function as they are written. -/
def paramSymbols (params : List String) (variadic : Bool) : List Datum :=
  match params with
  | [] => []
  | [p] => [symbol ⟨p, variadic⟩]
  | p :: ps => name p :: paramSymbols ps variadic

mutual

/-- The expression that builds a value: a struct becomes a call of its constructor and a closure a
lambda form. Native operators have none. -/
def toExpr : Datum → Except LispError Datum
  | list items => return list (← toExprs items)
  | struct type fields => return list (name ("make-" ++ type) :: (← toExprs fields))
  | closure params variadic body =>
    return list [name "lambda", list (paramSymbols params variadic), body]
  | intrinsic f => throw (.noSource f.name)
  | special f => throw (.noSource f.name)
  | d => return d

def toExprs : List Datum → Except LispError (List Datum)
  | [] => return []
  | d :: ds => return (← toExpr d) :: (← toExprs ds)

end

end DynamicLisp.Datum
