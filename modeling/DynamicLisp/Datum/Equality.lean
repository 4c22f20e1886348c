import DynamicLisp.Datum.Basic

/-! Structural comparison of values. -/
namespace DynamicLisp.Datum

mutual

/-- Whether two values are equal. Values of different shape are not, and nothing is equal to a
function, a quotation or the nil marker. Numbers compare as doubles do. `none` stands for a
comparison without an end: that of a struct with a symbol on its right. -/
def equal? : Datum → Datum → Option Bool
  | bool a, bool b => some (a == b)
  | number a, number b => some (a == b)
  | string a, string b => some (a == b)
  | symbol a, symbol b => some (a == b)
  | list as, list bs => if as.length = bs.length then allEqual? as bs else some false
  | struct t as, struct u bs =>
    if t = u ∧ as.length = bs.length then allEqual? as bs else some false
  | struct _ _, symbol _ => none
  | _, _ => some false

/-- Compares item by item up to the first difference. -/
def allEqual? : List Datum → List Datum → Option Bool
  | a :: as, b :: bs =>
    match equal? a b with
    | some true => allEqual? as bs
    | r => r
  | _, _ => some true

end

end DynamicLisp.Datum
