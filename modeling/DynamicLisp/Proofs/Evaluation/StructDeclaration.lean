import DynamicLisp.Proofs.Evaluation.Bindings
import Mathlib.Data.List.Basic

/-! The declaration of a struct type. It is checked as a whole before anything is changed; then the type
is registered and its operators are bound, and nothing else is changed (`define_struct_atomic`). -/
namespace DynamicLisp.SpecialForm

variable {type field x : String} {fields : List String} {exprs : List Datum} {e : LispError}
  {w w' : World}

/-! ### What the operators do -/

/-- The form tells the instances of the type from all other values. -/
structure ActsAsPredicate (type : String) (f : SpecialForm) : Prop where
  count (ev : Evaluator) (es : List Datum) (w : World) : es.length ≠ 1 →
    f.run ev es w = (.error (.error (.arity .exact 1 es.length)), w)
  stop {ev : Evaluator} {d : Datum} {w w' : World} {s : Stop} : ev d w = (.error s, w') →
    f.run ev [d] w = (.error s, w')
  value {ev : Evaluator} {d v : Datum} {w w' : World} : ev d w = (.ok v, w') →
    ∀ b, (b = true ↔ ∃ vs, v = .struct type vs) → f.run ev [d] w = (.ok (.bool b), w')

/-- The form makes instances of the type, with as many values as it has fields. -/
structure ActsAsConstructor (type : String) (f : SpecialForm) : Prop where
  count (ev : Evaluator) (es : List Datum) {w : World} {fields : List String} :
    w.environment.fields? type = some fields → es.length ≠ fields.length →
      f.run ev es w = (.error (.error (.arity .exact fields.length es.length)), w)
  stop {ev : Evaluator} {es : List Datum} {w w' : World} {fields : List String} {s : Stop} :
    w.environment.fields? type = some fields → es.length = fields.length →
      evaluateAll ev es w = (.error s, w') → f.run ev es w = (.error s, w')
  value {ev : Evaluator} {es vs : List Datum} {w w' : World} {fields : List String} :
    w.environment.fields? type = some fields → es.length = fields.length →
      evaluateAll ev es w = (.ok vs, w') → f.run ev es w = (.ok (.struct type vs), w')

/-- The form gives the value that an instance of the type has in the place of the field. -/
structure ActsAsAccessor (type field : String) (f : SpecialForm) : Prop where
  count (ev : Evaluator) (es : List Datum) (w : World) : es.length ≠ 1 →
    f.run ev es w = (.error (.error (.arity .exact 1 es.length)), w)
  stop {ev : Evaluator} {d : Datum} {w w' : World} {s : Stop} : ev d w = (.error s, w') →
    f.run ev [d] w = (.error s, w')
  other {ev : Evaluator} {d v : Datum} {w w' : World} : ev d w = (.ok v, w') →
    (∀ vs, v ≠ .struct type vs) → f.run ev [d] w = (.error (.error (notInstance type v)), w')
  value {ev : Evaluator} {d v : Datum} {vs : List Datum} {w w' : World} {fields : List String} :
    ev d w = (.ok (.struct type vs), w') → w'.environment.fields? type = some fields →
      field ∈ fields → vs.length = fields.length → vs[fields.idxOf field]? = some v →
        f.run ev [d] w = (.ok v, w')

theorem runIsA_count (ev : Evaluator) {es : List Datum} (h : es.length ≠ 1) (w : World) :
    runIsA ev type es w = (.error (.error (.arity .exact 1 es.length)), w) := by
  match es with
  | [_] => exact absurd rfl h
  | [] | _ :: _ :: _ => rfl

theorem runAccess_count (ev : Evaluator) {es : List Datum} (h : es.length ≠ 1) (w : World) :
    runAccess ev type field es w = (.error (.error (.arity .exact 1 es.length)), w) := by
  match es with
  | [_] => exact absurd rfl h
  | [] | _ :: _ :: _ => rfl

theorem isA_actsAs (type : String) : ActsAsPredicate type (isA type) where
  count ev es w h := runIsA_count ev h w
  stop h := by
    rw [run, runIsA, Action.bind_apply, h]
  value h b hb := runIsA_eq h b hb

theorem make_actsAs (type : String) : ActsAsConstructor type (make type) where
  count ev es _ _ hfields hcount := runMake_count hfields hcount
  stop hfields hcount h := by
    rw [run, runMake_of_count hfields hcount, Action.bind_apply, h]
  value hfields hcount h := runMake_eq hfields hcount h

theorem access_actsAs (type field : String) : ActsAsAccessor type field (access type field) where
  count ev es w h := runAccess_count ev h w
  stop h := by
    rw [run, runAccess, Action.bind_apply, h]
  other h hv := runAccess_notInstance h hv
  value {_ _ v vs _ _ fields} h hfields hknown hlength hv := by
    obtain ⟨hi, rfl⟩ := List.getElem?_eq_some_iff.1 hv
    have hfield : fieldOf type field fields vs = .ok vs[fields.idxOf field] := by
      rw [fieldOf, dif_pos hknown, dif_pos hlength]
      rfl
    rw [run, runAccess_struct h hfields, hfield]
    rfl

/-! ### What a declaration leaves behind -/

/-- The names that the operators of a struct type are bound to. -/
def OperatorName (type : String) (fields : List String) (x : String) : Prop :=
  x = type ++ "?" ∨ (∃ field ∈ fields, x = type ++ "-" ++ field) ∨ x = "make-" ++ type

/-- The second environment is the first one with a struct type declared. An accessor that is called like
the constructor is not to be had. -/
structure Declares (type : String) (fields : List String) (e e' : Environment) : Prop where
  registry (t : String) : e'.fields? t = if t = type then some fields else e.fields? t
  bindings : e.BindsOnly (OperatorName type fields) e'
  predicate : ∃ f, e'.innermost.find? (type ++ "?") = some (.special f) ∧ ActsAsPredicate type f
  constructor : ∃ f, e'.innermost.find? ("make-" ++ type) = some (.special f) ∧
    ActsAsConstructor type f
  accessor (field : String) : field ∈ fields → type ++ "-" ++ field ≠ "make-" ++ type →
    ∃ f, e'.innermost.find? (type ++ "-" ++ field) = some (.special f) ∧ ActsAsAccessor type field f

/-- The bindings of the operators, in the order in which they are made. -/
def operatorBindings (type : String) (fields : List String) : List (String × Datum) :=
  (structOperators type fields).map fun f => (f.name, .special f)

theorem mem_operatorBindings {d : Datum} : (x, d) ∈ operatorBindings type fields ↔
    ∃ f ∈ structOperators type fields, f.name = x ∧ .special f = d := by
  simp [operatorBindings]

theorem operatorName_iff :
    OperatorName type fields x ↔ x ∈ (operatorBindings type fields).map Prod.fst := by
  rw [operatorBindings, List.map_map, List.mem_map]
  constructor
  · rintro (rfl | ⟨field, hfield, rfl⟩ | rfl)
    · exact ⟨isA type, mem_structOperators.2 (.inl rfl), rfl⟩
    · exact ⟨access type field, mem_structOperators.2 (.inr (.inl ⟨field, hfield, rfl⟩)), rfl⟩
    · exact ⟨make type, mem_structOperators.2 (.inr (.inr rfl)), rfl⟩
  · rintro ⟨f, hf, rfl⟩
    rcases mem_structOperators.1 hf with rfl | ⟨field, hfield, rfl⟩ | rfl
    · exact .inl rfl
    · exact .inr (.inl ⟨field, hfield, rfl⟩)
    · exact .inr (.inr rfl)

theorem innermost_declared (e : Environment) : (declared type fields e).innermost =
    e.innermost.update (operatorBindings type fields) :=
  Environment.innermost_modifyInnermost _

theorem declared_predicate (e : Environment) :
    (declared type fields e).innermost.find? (type ++ "?") = some (.special (isA type)) := by
  rw [innermost_declared]
  apply Table.find?_update_of_forall (operatorName_iff.1 (.inl rfl))
  intro d hd
  obtain ⟨f, hf, hname, rfl⟩ := mem_operatorBindings.1 hd
  rcases mem_structOperators.1 hf with rfl | ⟨field, _, rfl⟩ | rfl
  · rfl
  · exact absurd hname.symm isA_name_ne_access
  · exact absurd hname.symm isA_name_ne_make

theorem declared_constructor (e : Environment) :
    (declared type fields e).innermost.find? ("make-" ++ type) = some (.special (make type)) := by
  have hlast : operatorBindings type fields =
      (isA type :: fields.map (access type)).map (fun f => (f.name, .special f)) ++
        [("make-" ++ type, .special (make type))] := List.map_append
  rw [innermost_declared, hlast]
  exact Table.find?_update_concat _ _ _ _

theorem declared_accessor (e : Environment) (hfield : field ∈ fields)
    (hmake : type ++ "-" ++ field ≠ "make-" ++ type) :
    (declared type fields e).innermost.find? (type ++ "-" ++ field) =
      some (.special (access type field)) := by
  rw [innermost_declared]
  apply Table.find?_update_of_forall (operatorName_iff.1 (.inr (.inl ⟨field, hfield, rfl⟩)))
  intro d hd
  obtain ⟨f, hf, hname, rfl⟩ := mem_operatorBindings.1 hd
  rcases mem_structOperators.1 hf with rfl | ⟨field', _, rfl⟩ | rfl
  · exact absurd hname isA_name_ne_access
  · rw [access_name_inj hname]
  · exact absurd hname.symm hmake

theorem fields?_declared_eq (e : Environment) (t : String) :
    (declared type fields e).fields? t = if t = type then some fields else e.fields? t := by
  simp only [declared, Environment.fields?, Environment.update, Environment.structs_modifyInnermost,
    Environment.addStruct, Table.find?_set, eq_comm]

theorem declares_declared (type : String) (fields : List String) (e : Environment) :
    Declares type fields e (declared type fields e) where
  registry := fields?_declared_eq e
  bindings := by
    have hnames : OperatorName type fields = (· ∈ (operatorBindings type fields).map Prod.fst) :=
      funext fun _ => propext operatorName_iff
    rw [hnames]
    have honly := (e.addStruct type fields).bindsOnly_update (operatorBindings type fields)
    exact ⟨honly.outer, honly.bound, honly.others⟩
  predicate := ⟨isA type, declared_predicate e, isA_actsAs type⟩
  constructor := ⟨make type, declared_constructor e, make_actsAs type⟩
  accessor field hfield hmake :=
    ⟨access type field, declared_accessor e hfield hmake, access_actsAs type field⟩

/-! ### What is checked -/

/-- What is wrong with the expressions of a declaration. They are checked from left to right, after their
number. -/
inductive Malformed : List Datum → LispError → Prop
  | count {exprs : List Datum} : exprs.length ≠ 2 → Malformed exprs (.arity .exact 2 exprs.length)
  | type {d : Datum} (list : Datum) : (∀ s, d ≠ .symbol s) →
    Malformed [d, list] (.notAnIdentifier d.source)
  | fields (s : Symbol) {d : Datum} : (∀ ds, d ≠ .list ds) →
    Malformed [.symbol s, d] (.notA .list d.source)
  | noFields (s : Symbol) : Malformed [.symbol s, .list []] (.arity .exact 1 0)
  | field (s : Symbol) (before : List Symbol) {d : Datum} (after : List Datum) :
    (∀ s, d ≠ .symbol s) →
      Malformed [.symbol s, .list (before.map .symbol ++ d :: after)] (.notAnIdentifier d.source)

/-- All of a list are identifiers, or there is a first one that is none. -/
theorem identifiers_or_first (ds : List Datum) :
    (∃ ss : List Symbol, ds = ss.map .symbol) ∨ ∃ (before : List Symbol) (d : Datum)
      (after : List Datum), ds = before.map .symbol ++ d :: after ∧ ∀ s, d ≠ .symbol s := by
  induction ds with
  | nil => exact .inl ⟨[], rfl⟩
  | cons d ds ih =>
    by_cases hd : ∃ s, d = .symbol s
    · obtain ⟨s, rfl⟩ := hd
      rcases ih with ⟨ss, rfl⟩ | ⟨before, d, after, rfl, hd⟩
      · exact .inl ⟨s :: ss, rfl⟩
      · exact .inr ⟨s :: before, d, after, rfl, hd⟩
    · exact .inr ⟨[], d, ds, rfl, not_exists.1 hd⟩

theorem mapM_fieldName (ss : List Symbol) :
    (ss.map Datum.symbol).mapM fieldName = .ok (ss.map Symbol.name) := by
  induction ss with
  | nil => rfl
  | cons s ss ih =>
    rw [List.map_cons, List.mapM_cons, ih]
    rfl

theorem fieldName_error {d : Datum} (hd : ∀ s, d ≠ .symbol s) :
    fieldName d = .error (.notAnIdentifier d.source) := by
  cases d with
  | symbol s => exact absurd rfl (hd s)
  | _ => rfl

theorem mapM_fieldName_error (before : List Symbol) {d : Datum} (after : List Datum)
    (hd : ∀ s, d ≠ .symbol s) : (before.map Datum.symbol ++ d :: after).mapM fieldName =
      .error (.notAnIdentifier d.source) := by
  rw [List.mapM_append, mapM_fieldName, List.mapM_cons, fieldName_error hd]
  rfl

theorem structDeclaration_fields (s : Symbol) {ds : List Datum} (hds : ds ≠ []) :
    structDeclaration [.symbol s, .list ds] = do return (s.name, ← ds.mapM fieldName) := by
  obtain ⟨d, ds, rfl⟩ := List.exists_cons_of_ne_nil hds
  rfl

theorem Malformed.declaration (h : Malformed exprs e) : structDeclaration exprs = .error e := by
  cases h with
  | count hcount =>
    unfold structDeclaration
    split
    · exact absurd rfl hcount
    · exact absurd rfl hcount
    · exact absurd rfl hcount
    · exact absurd rfl hcount
    · rfl
  | @type d list hd =>
    cases d with
    | symbol s => exact absurd rfl (hd s)
    | _ => rfl
  | @fields s d hd =>
    cases d with
    | list ds => exact absurd rfl (hd ds)
    | _ => rfl
  | noFields s => rfl
  | field s before after hd =>
    rw [structDeclaration_fields s (by simp), mapM_fieldName_error before after hd]
    rfl

theorem Malformed.runDefineStruct (h : Malformed exprs e) (w : World) :
    runDefineStruct exprs w = (.error (.error e), w) := by
  unfold SpecialForm.runDefineStruct
  rw [h.declaration]
  rfl

theorem structDeclaration_identifiers (s : Symbol) {ss : List Symbol} (hss : ss ≠ []) :
    structDeclaration [.symbol s, .list (ss.map .symbol)] = .ok (s.name, ss.map Symbol.name) := by
  rw [structDeclaration_fields s (by simpa using hss), mapM_fieldName]
  rfl

/-- A declaration is malformed, or it is one of an identifier and at least one more. -/
theorem malformed_or_identifiers (exprs : List Datum) : (∃ e, Malformed exprs e) ∨
    ∃ (s : Symbol) (ss : List Symbol), exprs = [.symbol s, .list (ss.map .symbol)] ∧ ss ≠ [] := by
  by_cases hcount : exprs.length = 2
  · obtain ⟨d, list, rfl⟩ : ∃ d list, exprs = [d, list] := List.length_eq_two.1 hcount
    by_cases hd : ∃ s, d = .symbol s
    · obtain ⟨s, rfl⟩ := hd
      by_cases hlist : ∃ ds, list = .list ds
      · obtain ⟨ds, rfl⟩ := hlist
        rcases identifiers_or_first ds with ⟨ss, rfl⟩ | ⟨before, d, after, rfl, hd⟩
        · by_cases hss : ss = []
          · subst hss
            exact .inl ⟨_, .noFields s⟩
          · exact .inr ⟨s, ss, rfl, hss⟩
        · exact .inl ⟨_, .field s before after hd⟩
      · exact .inl ⟨_, .fields s (not_exists.1 hlist)⟩
    · exact .inl ⟨_, .type list (not_exists.1 hd)⟩
  · exact .inl ⟨_, .count hcount⟩

/-- The form either fails, if it is malformed, and then nothing has changed, or it declares the struct type
with the fields as they stand in it. Nothing is evaluated for that. -/
theorem define_struct_atomic (exprs : List Datum) (w : World) :
    ∃ p, ((∃ e, Malformed exprs e ∧ p = (.error (.error e), w)) ∨
        ∃ (s : Symbol) (ss : List Symbol) (e : Environment),
          exprs = [.symbol s, .list (ss.map .symbol)] ∧ ss ≠ [] ∧
          Declares s.name (ss.map Symbol.name) w.environment e ∧
          p = (.ok .empty, { w with environment := e })) ∧
      (∀ ev, run ev exprs .defineStruct w = p) ∧
      ∀ limit head w₀, evaluate limit head w₀ = (.ok (.special .defineStruct), w) →
        evaluate (limit + 1) (.list (head :: exprs)) w₀ = p := by
  refine ⟨runDefineStruct exprs w, ?_, fun _ => rfl, fun _ _ _ => evaluate_form⟩
  rcases malformed_or_identifiers exprs with ⟨e, he⟩ | ⟨s, ss, rfl, hss⟩
  · exact .inl ⟨e, he, he.runDefineStruct w⟩
  · have hrun := runDefineStruct_eq (w := w) (structDeclaration_identifiers s hss)
    exact .inr ⟨s, ss, _, rfl, hss, declares_declared _ _ _, hrun⟩

/-- A type with a field twice and with a field whose accessor is called like the constructor. -/
theorem define_struct_atomic_make :
    let w : World := ⟨Environment.empty.update [("define-struct", .special .defineStruct)], default⟩
    let fields := ["x", "make", "x"]
    let d : Datum := .list [.name "define-struct", .name "make", .list (fields.map .name)]
    ∃ e, evaluate 2 d w = (.ok .empty, { w with environment := e }) ∧
      e.fields? "make" = some fields ∧
      (∃ f, e.innermost.find? "make-make" = some (.special f) ∧ ActsAsConstructor "make" f) ∧
      ∃ f, e.innermost.find? "make-x" = some (.special f) ∧ ActsAsAccessor "make" "x" f := by
  intro w fields d
  obtain ⟨p, hp, -, hevaluate⟩ :=
    define_struct_atomic [.name "make", .list (fields.map .name)] w
  have hrun : evaluate 2 d w = p := hevaluate 1 (.name "define-struct") w rfl
  rcases hp with ⟨e, -, rfl⟩ | ⟨s, ss, e, hexprs, hss, hdeclares, rfl⟩
  · have hok : (evaluate 2 d w).1 = .ok .empty := rfl
    rw [hrun] at hok
    cases hok
  · have hsame := congrArg structDeclaration hexprs
    rw [structDeclaration_identifiers s hss] at hsame
    have hpair : ("make", fields) = (s.name, ss.map Symbol.name) := Except.ok.inj hsame
    rw [← (Prod.mk.inj hpair).1, ← (Prod.mk.inj hpair).2] at hdeclares
    exact ⟨e, hrun, hdeclares.registry "make", hdeclares.constructor,
      hdeclares.accessor "x" (by decide) (by decide)⟩

end DynamicLisp.SpecialForm
