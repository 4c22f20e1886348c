import DynamicLisp.Datum.Conversion
import DynamicLisp.Proofs.Datum.RoundTrip
import DynamicLisp.Proofs.Evaluation.Failure

/-! Data of which expressions are made, and data that are values. Both are closed under the conversions
between expressions and values. -/
namespace DynamicLisp

/-- Whatever is read before an error, the grammar derives. -/
theorem exists_sequence (cs : List Char) : ∃ ts, Sequence ts (Script.ofChars cs).exprs := by
  rw [Script.ofChars]
  obtain ⟨ds, fs, hc⟩ | ⟨ts, t, us, ds, fs, e, hts, hc, he⟩ :=
    consume_or_feed [] (Cursor.ofChars cs).tokens
  · rw [ofCursor_of_consume hc]
    obtain ⟨vs, _, _, hs, _⟩ := sequence_of_consume .nil hc
    exact ⟨vs, hs⟩
  · rw [(earliest_token hts hc he).1]
    obtain ⟨vs, _, _, hs, _⟩ := sequence_of_consume .nil hc
    exact ⟨vs, hs⟩

namespace Datum

/-- Expressions as they are read and as values are converted to them. -/
inductive IsCode : Datum → Prop
  | bool (b : Bool) : IsCode (.bool b)
  | number (x : Float) : IsCode (.number x)
  | string (s : String) : IsCode (.string s)
  | symbol (s : Symbol) : IsCode (.symbol s)
  | list {ds : List Datum} : (∀ d ∈ ds, IsCode d) → IsCode (.list ds)
  | quote {d : Datum} : IsCode d → IsCode (.quote d)

/-- Values, given the struct types that are known: no quotation and no nil mark occurs in them but in
the bodies of closures, a variadic closure has a parameter to take the arguments that are left, and
instances and operators are of known struct types. -/
inductive WellFormed (known : String → Prop) : Datum → Prop
  | bool (b : Bool) : WellFormed known (.bool b)
  | number (x : Float) : WellFormed known (.number x)
  | string (s : String) : WellFormed known (.string s)
  | symbol (s : Symbol) : WellFormed known (.symbol s)
  | list {ds : List Datum} : (∀ d ∈ ds, WellFormed known d) → WellFormed known (.list ds)
  | closure {params : List String} {variadic : Bool} {body : Datum} :
    (variadic = true → params ≠ []) → IsCode body → WellFormed known (.closure params variadic body)
  | intrinsic (f : Intrinsic) : WellFormed known (.intrinsic f)
  | special {f : SpecialForm} :
    (∀ type fields, f ∈ SpecialForm.structOperators type fields → known type) →
      WellFormed known (.special f)
  | struct {type : String} {fields : List Datum} : known type → (∀ d ∈ fields, WellFormed known d) →
    WellFormed known (.struct type fields)

variable {known : String → Prop} {d : Datum} {ds : List Datum}

theorem isCode_list : IsCode (.list ds) ↔ ∀ d ∈ ds, IsCode d := by
  refine ⟨fun h => ?_, .list⟩
  cases h with
  | list h => exact h

theorem wellFormed_list : WellFormed known (.list ds) ↔ ∀ d ∈ ds, WellFormed known d := by
  refine ⟨fun h => ?_, .list⟩
  cases h with
  | list h => exact h

theorem isCode_name (s : String) : IsCode (.name s) := .symbol _

/-- A value stays one when more struct types are known. -/
theorem WellFormed.mono {known' : String → Prop} (h : WellFormed known d)
    (hknown : ∀ type, known type → known' type) : WellFormed known' d := by
  induction h with
  | bool b => exact .bool b
  | number x => exact .number x
  | string s => exact .string s
  | symbol s => exact .symbol s
  | list _ ih => exact .list ih
  | closure hparams hbody => exact .closure hparams hbody
  | intrinsic f => exact .intrinsic f
  | special hf => exact .special fun type fields h => hknown type (hf type fields h)
  | struct htype _ ih => exact .struct (hknown _ htype) ih

/-- What a quoted expression stands for is a value, whatever struct types are known. -/
theorem IsCode.toValue (h : IsCode d) : WellFormed known d.toValue := by
  induction h with
  | bool b => exact .bool b
  | number x => exact .number x
  | string s => exact .string s
  | symbol s => exact .symbol s
  | list _ ih =>
    rw [Datum.toValue, toValues_eq_map]
    exact .list (List.forall_mem_map.2 ih)
  | quote _ ih =>
    rw [Datum.toValue]
    exact ih

theorem toExprs_eq_mapM (ds : List Datum) : toExprs ds = ds.mapM toExpr := by
  induction ds with
  | nil => rfl
  | cons d ds ih => rw [toExprs, List.mapM_cons, ih]

theorem isCode_paramSymbols (params : List String) (variadic : Bool) :
    ∀ d ∈ paramSymbols params variadic, IsCode d := by
  fun_induction paramSymbols params variadic with
  | case1 => exact List.forall_mem_nil _
  | case2 p => exact List.forall_mem_singleton.2 (.symbol _)
  | case3 p ps _ ih => exact List.forall_mem_cons.2 ⟨isCode_name p, ih⟩

/-- What a value is converted to is an expression. Only native operators cannot be converted. -/
theorem WellFormed.toExpr (h : WellFormed known d) :
    Gives (fun e => ∃ f, e = .noSource f) IsCode d.toExpr := by
  induction h with
  | bool b => exact .bool b
  | number x => exact .number x
  | string s => exact .string s
  | symbol s => exact .symbol s
  | list _ ih =>
    rw [Datum.toExpr, toExprs_eq_mapM]
    exact .bind (.mapM ih) fun _ => .list
  | closure _ hbody =>
    refine .list (List.forall_mem_cons.2 ⟨isCode_name _, List.forall_mem_cons.2 ⟨?_, ?_⟩⟩)
    · exact .list (isCode_paramSymbols _ _)
    · exact List.forall_mem_singleton.2 hbody
  | intrinsic f => exact ⟨_, rfl⟩
  | special _ => exact ⟨_, rfl⟩
  | struct _ _ ih =>
    rw [Datum.toExpr, toExprs_eq_mapM]
    exact .bind (.mapM ih) fun _ hexprs => .list (List.forall_mem_cons.2 ⟨isCode_name _, hexprs⟩)

end Datum

open Datum (IsCode)

mutual

theorem Expression.isCode {ts : List Token} {d : Datum} : Expression ts d → IsCode d
  | .atom h => by
    obtain ⟨b, -, rfl⟩ | ⟨n, _, rfl⟩ | ⟨s, _, rfl⟩ := ofAtom?_cases h
    · exact .bool b
    · exact .number _
    · exact .symbol s
  | .string _ => .string _
  | .quote h => .quote h.isCode
  | .list _ h => .list h.isCode

theorem Sequence.isCode {ts : List Token} {ds : List Datum} : Sequence ts ds → ∀ d ∈ ds, IsCode d
  | .nil => List.forall_mem_nil _
  | .cons h hs => List.forall_mem_cons.2 ⟨h.isCode, hs.isCode⟩

end

theorem isCode_of_read {text : List Char} {d : Datum} (h : d ∈ (Script.ofChars text).exprs) :
    IsCode d := by
  obtain ⟨ts, hs⟩ := exists_sequence text
  exact hs.isCode d h

end DynamicLisp
