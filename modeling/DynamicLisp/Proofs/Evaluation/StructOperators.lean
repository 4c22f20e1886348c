import DynamicLisp.Proofs.Evaluation.History

/-! The operators of struct types, from their declaration on and for as long as the type is not
declared again (`struct_laws`). -/
namespace DynamicLisp

namespace Table

variable {κ α : Type} [DecidableEq κ] {t : Table κ α} {x : κ} {a : α}

theorem find?_update_of_not_mem {bindings : List (κ × α)} (h : x ∉ bindings.map Prod.fst) :
    (t.update bindings).find? x = t.find? x := by
  induction bindings generalizing t with
  | nil => rfl
  | cons b bindings ih =>
    rw [List.map_cons, List.mem_cons, not_or] at h
    refine (ih h.2).trans ?_
    rw [find?_set, if_neg (Ne.symm h.1)]

/-- Of bindings with different names each one takes effect. -/
theorem find?_update_of_mem {bindings : List (κ × α)} (hnodup : (bindings.map Prod.fst).Nodup)
    (h : (x, a) ∈ bindings) : (t.update bindings).find? x = some a := by
  induction bindings generalizing t with
  | nil => cases h
  | cons b bindings ih =>
    rw [List.map_cons, List.nodup_cons] at hnodup
    rcases List.mem_cons.1 h with rfl | h
    · refine (find?_update_of_not_mem hnodup.1).trans ?_
      rw [find?_set, if_pos rfl]
    · exact ih hnodup.2 h

end Table

theorem Environment.get?_of_innermost {e : Environment} {x : String} {d : Datum}
    (h : e.innermost.find? x = some d) : e.get? x = some d := by
  unfold innermost at h
  unfold get? lookupIn
  cases hi : e.inner with
  | nil => simpa [hi] using h
  | cons s inner =>
    rw [hi] at h
    have hs : s.find? x = some d := h
    simp [hs]

/-! ### Names of operators -/

/-- A text does not get a mark by what is put behind it, unless its characters are those of the
mark. -/
theorem not_prefix_append {p cs ds : List Char} {c : Char} (h : ¬ p <+: cs) (hc : c ∉ p) :
    ¬ p <+: cs ++ c :: ds := by
  intro hp
  rcases Nat.lt_or_ge cs.length p.length with hlt | hle
  · have hcs : cs ++ [c] <+: cs ++ c :: ds := ⟨ds, by simp⟩
    have hmem := List.prefix_of_prefix_length_le hcs hp (by simp; omega)
    exact hc (hmem.subset (by simp))
  · exact h (List.prefix_of_prefix_length_le hp (List.prefix_append _ _) hle)

theorem superName?_eq_none {x : String} : superName? x = none ↔ ¬ superMark.toList <+: x.toList := by
  unfold superName?
  split
  · simp_all
  · simp_all

namespace SpecialForm

variable {type field : String} {fields : List String}

theorem mem_structOperators {f : SpecialForm} : f ∈ structOperators type fields ↔
    f = .isA type ∨ (∃ field ∈ fields, f = .access type field) ∨ f = .make type := by
  simp [structOperators, eq_comm]

theorem superName?_operator (htype : superName? type = none) {f : SpecialForm}
    (hf : f ∈ structOperators type fields) : superName? f.name = none := by
  rw [superName?_eq_none] at htype ⊢
  rcases mem_structOperators.1 hf with rfl | ⟨field, _, rfl⟩ | rfl
  · rw [name, String.toList_append]
    exact not_prefix_append htype (by decide)
  · rw [name, String.toList_append, String.toList_append, List.append_assoc]
    exact not_prefix_append htype (by decide)
  · rw [name, String.toList_append]
    rintro ⟨rest, hrest⟩
    cases hrest

theorem access_name_inj {f g : String} (h : (access type f).name = (access type g).name) :
    f = g := by
  simpa [name] using h

theorem isA_name_ne_access : (isA type).name ≠ (access type field).name := by
  intro h
  have hlist := congrArg String.toList h
  simp [name] at hlist

theorem isA_name_ne_make : (isA type).name ≠ (make type).name := by
  intro h
  have hlength := congrArg (List.length ∘ String.toList) h
  simp [name] at hlength

theorem nodup_operator_names (hnodup : fields.Nodup)
    (hmake : ∀ field ∈ fields, (make type).name ≠ (access type field).name) :
    ((structOperators type fields).map name).Nodup := by
  have hmap : ((fields.map (access type)).map name).Nodup := by
    refine List.pairwise_map.2 (List.pairwise_map.2 (hnodup.imp ?_))
    intro f g hne h
    exact hne (access_name_inj h)
  rw [structOperators, List.cons_append, List.map_cons, List.nodup_cons, List.map_append,
    List.nodup_append]
  refine ⟨?_, hmap, by simp, ?_⟩
  · intro hmem
    rcases List.mem_append.1 hmem with hmem | hmem
    · simp only [List.map_map, List.mem_map, Function.comp_apply] at hmem
      obtain ⟨f, _, hf⟩ := hmem
      exact isA_name_ne_access hf.symm
    · exact isA_name_ne_make (List.mem_singleton.1 hmem)
  · intro x hx y hy
    simp only [List.map_map, List.mem_map, Function.comp_apply] at hx
    obtain ⟨f, hf, rfl⟩ := hx
    rw [List.mem_singleton.1 hy]
    exact (hmake f hf).symm

/-! ### Declarations -/

/-- The names of the operators of a struct type stand for the operators. -/
def InForce (type : String) (fields : List String) (w : World) : Prop :=
  ∀ f ∈ structOperators type fields, w.environment.resolve f.name = .ok (.special f)

variable {exprs es : List Datum} {d e v : Datum} {vs : List Datum} {w w' : World} {ev : Evaluator}
  {limit : Nat}

/-- The environment in which a struct type has been declared. -/
def declared (type : String) (fields : List String) (e : Environment) : Environment :=
  (e.addStruct type fields).update
    ((structOperators type fields).map fun f => (f.name, .special f))

theorem fields?_declared (e : Environment) :
    (declared type fields e).fields? type = some fields := by
  simp only [declared, Environment.fields?, Environment.update,
    Environment.structs_modifyInnermost, Environment.addStruct, Table.find?_set, if_true]

/-- A declaration that goes through binds each operator to its name. -/
theorem get?_declared (e : Environment) (hnodup : fields.Nodup)
    (hmake : ∀ field ∈ fields, (make type).name ≠ (access type field).name) {f : SpecialForm}
    (hf : f ∈ structOperators type fields) :
    (declared type fields e).get? f.name = some (.special f) := by
  apply Environment.get?_of_innermost
  rw [declared, Environment.update, Environment.innermost_modifyInnermost]
  apply Table.find?_update_of_mem
  · rw [List.map_map]
    exact nodup_operator_names hnodup hmake
  · exact List.mem_map_of_mem hf

theorem runDefineStruct_eq (hdeclaration : structDeclaration exprs = .ok (type, fields)) :
    runDefineStruct exprs w =
      (.ok .empty, { w with environment := declared type fields w.environment }) := by
  unfold runDefineStruct
  rw [hdeclaration]
  rfl

theorem inForce_declared (hnodup : fields.Nodup) (htype : superName? type = none)
    (hmake : ∀ field ∈ fields, (make type).name ≠ (access type field).name) :
    InForce type fields { w with environment := declared type fields w.environment } := by
  intro f hf
  rw [Environment.resolve, superName?_operator htype hf]
  exact congrArg (Option.elim · _ _) (get?_declared w.environment hnodup hmake hf)

/-! ### Calls -/

theorem evaluate_name {x : String} (h : w.environment.resolve x = .ok v) :
    evaluate (limit + 1) (.name x) w = (.ok v, w) := by
  rw [evaluate, Datum.name, evaluateWith_symbol, h]
  rfl

/-- A form whose head is a special form hands its expressions over as they are. -/
theorem evaluate_form {f : SpecialForm} {head : Datum}
    (h : evaluate limit head w = (.ok (.special f), w')) :
    evaluate (limit + 1) (.list (head :: es)) w = f.run (evaluate limit) es w' := by
  rw [evaluate, evaluateWith, Action.bind_apply, h]
  rfl

theorem evaluate_call {f : SpecialForm} (h : w.environment.resolve f.name = .ok (.special f)) :
    evaluate (limit + 2) (.list (.name f.name :: es)) w = f.run (evaluate (limit + 1)) es w :=
  evaluate_form (evaluate_name h)

/-- Evaluation that gives a value has a limit above zero. -/
theorem exists_limit (h : evaluate limit e w = (.ok v, w')) : ∃ k, limit = k + 1 := by
  cases limit with
  | zero => cases h
  | succ k => exact ⟨k, rfl⟩

theorem registeredFields_eq (h : w.environment.fields? type = some fields) :
    registeredFields type w = (.ok fields, w) := by
  rw [registeredFields_apply, h]
  rfl

theorem runMake_of_count (hfields : w.environment.fields? type = some fields)
    (hcount : es.length = fields.length) : runMake ev type es w =
      (evaluateAll ev es >>= fun values => pure (Datum.struct type values)) w := by
  have hexpect : expectExact fields.length es = .ok () := if_pos hcount
  rw [runMake, Action.bind_apply, registeredFields_eq hfields]
  dsimp only
  rw [hexpect, mapM_eq_evaluateAll]
  rfl

/-- A constructor evaluates its arguments and makes an instance of their values. -/
theorem runMake_eq (hfields : w.environment.fields? type = some fields)
    (hcount : es.length = fields.length) (h : evaluateAll ev es w = (.ok vs, w')) :
    runMake ev type es w = (.ok (.struct type vs), w') := by
  rw [runMake_of_count hfields hcount, Action.bind_apply, h]
  rfl

/-- A constructor checks the number of its arguments before it evaluates any. -/
theorem runMake_count (hfields : w.environment.fields? type = some fields)
    (hcount : es.length ≠ fields.length) :
    runMake ev type es w = (.error (.error (.arity .exact fields.length es.length)), w) := by
  have hexpect : expectExact fields.length es =
      .error (.arity .exact fields.length es.length) := if_neg hcount
  rw [runMake, Action.bind_apply, registeredFields_eq hfields]
  dsimp only
  rw [hexpect]
  rfl

/-- What a constructor makes is an instance with a value for each field registered at its call. -/
theorem runMake_ok (h : runMake ev type es w = (.ok v, w')) :
    ∃ fields vs, w.environment.fields? type = some fields ∧ es.length = fields.length ∧
      evaluateAll ev es w = (.ok vs, w') ∧ v = .struct type vs := by
  cases hfields : w.environment.fields? type with
  | none =>
    rw [runMake, Action.bind_apply, registeredFields_apply, hfields] at h
    cases h
  | some fields =>
    by_cases hcount : es.length = fields.length
    · rw [runMake_of_count hfields hcount] at h
      obtain ⟨vs, w₁, hall, hresult⟩ := Action.bind_ok h
      cases hresult
      exact ⟨fields, vs, rfl, hcount, hall, rfl⟩
    · rw [runMake_count hfields hcount] at h
      cases h

theorem runIsA_eq (h : ev e w = (.ok v, w')) (b : Bool)
    (hb : b = true ↔ ∃ vs, v = .struct type vs) :
    runIsA ev type [e] w = (.ok (.bool b), w') := by
  rw [runIsA, Action.bind_apply, h]
  dsimp only
  split
  · rename_i type' vs
    have hsame : (type' == type) = b := by
      rw [Bool.eq_iff_iff, hb, beq_iff_eq]
      simp
    rw [hsame]
    rfl
  · rename_i hnone
    have hfalse : b = false := by
      rw [← Bool.not_eq_true, hb]
      rintro ⟨vs, rfl⟩
      exact hnone type vs rfl
    rw [hfalse]
    rfl

theorem fieldOf_eq {i : Nat} (hnodup : fields.Nodup) (hcount : vs.length = fields.length)
    (hfield : fields[i]? = some field) (hv : vs[i]? = some v) :
    fieldOf type field fields vs = .ok v := by
  obtain ⟨hi, rfl⟩ := List.getElem?_eq_some_iff.1 hfield
  obtain ⟨hj, rfl⟩ := List.getElem?_eq_some_iff.1 hv
  have hindex := hnodup.idxOf_getElem i hi
  rw [fieldOf, dif_pos (List.getElem_mem hi), dif_pos hcount]
  simp only [List.get_eq_getElem, hindex]

/-- An accessor reads an instance through the fields that are registered when it has been evaluated. -/
theorem runAccess_struct (h : ev e w = (.ok (.struct type vs), w'))
    (hfields : w'.environment.fields? type = some fields) :
    runAccess ev type field [e] w = ((fieldOf type field fields vs).mapError .error, w') := by
  rw [runAccess, Action.bind_apply, h]
  dsimp only
  rw [if_neg (by simp), Action.bind_apply]
  change (registeredFields type >>= fun fields => liftM (fieldOf type field fields vs)) w' = _
  rw [Action.bind_apply, registeredFields_eq hfields]
  rfl

/-- An accessor gives the value that stands in the place of its field. -/
theorem runAccess_eq {i : Nat} (h : ev e w = (.ok (.struct type vs), w'))
    (hfields : w'.environment.fields? type = some fields) (hnodup : fields.Nodup)
    (hcount : vs.length = fields.length) (hfield : fields[i]? = some field)
    (hv : vs[i]? = some v) : runAccess ev type field [e] w = (.ok v, w') := by
  rw [runAccess_struct h hfields, fieldOf_eq hnodup hcount hfield hv]
  rfl

/-- The error for a value that is no instance of a struct type. -/
def notInstance (type : String) (v : Datum) : LispError :=
  match v with
  | .struct .. => .notOfStruct v.display type
  | _ => .notA .struct v.display

theorem runAccess_notInstance (h : ev e w = (.ok v, w')) (hv : ∀ vs, v ≠ .struct type vs) :
    runAccess ev type field [e] w = (.error (.error (notInstance type v)), w') := by
  rw [runAccess, Action.bind_apply, h]
  dsimp only
  split
  · rename_i type' vs
    have htype : type' ≠ type := by
      rintro rfl
      exact hv vs rfl
    rw [if_pos htype]
    rfl
  · rename_i hnone
    have herror : notInstance type v = .notA .struct v.display := by
      unfold notInstance
      split
      · exact absurd rfl (hnone _ _)
      · rfl
    rw [herror]
    rfl

/-! ### The laws -/

/-- What holds of the operators of a struct type: accessors and predicate on new instances and on
other values, and the constructor with too few or too many arguments. -/
structure Laws (type : String) (fields : List String) (w : World) : Prop where
  select {limit : Nat} {es vs : List Datum} {w' : World} :
    evaluateAll (evaluate limit) es w = (.ok vs, w') → es.length = fields.length →
    w.Spares type w' → ∀ (i : Nat) (field : String), fields[i]? = some field → ∃ v, vs[i]? = some v ∧
      evaluate (limit + 2) (.list [.name (access type field).name,
        .list (.name (make type).name :: es)]) w = (.ok v, w')
  recognize {limit : Nat} {es vs : List Datum} {w' : World} :
    evaluateAll (evaluate limit) es w = (.ok vs, w') → es.length = fields.length →
      evaluate (limit + 2) (.list [.name (isA type).name,
        .list (.name (make type).name :: es)]) w = (.ok (.bool true), w')
  reject {limit : Nat} {e v : Datum} {w' : World} :
    evaluate limit e w = (.ok v, w') → (∀ vs, v ≠ .struct type vs) →
      evaluate (limit + 1) (.list [.name (isA type).name, e]) w = (.ok (.bool false), w') ∧
      ∀ field ∈ fields, evaluate (limit + 1) (.list [.name (access type field).name, e]) w =
        (.error (.error (notInstance type v)), w')
  /-- Whatever evaluates the arguments of the constructor is not asked if their number is wrong. -/
  count {es : List Datum} : es.length ≠ fields.length →
    (∀ ev, call ev (.special (.make type)) es w =
      (.error (.error (.arity .exact fields.length es.length)), w)) ∧
    ∀ limit, evaluate (limit + 2) (.list (.name (make type).name :: es)) w =
      (.error (.error (.arity .exact fields.length es.length)), w)

theorem structDeclaration_ne_nil (h : structDeclaration exprs = .ok (type, fields)) :
    fields ≠ [] := by
  unfold structDeclaration at h
  split at h
  · cases h
  · rename_i s ds hds
    cases ds with
    | nil => exact absurd rfl hds
    | cons d ds =>
      rw [List.mapM_cons] at h
      cases hd : fieldName d with
      | error _ =>
        rw [hd] at h
        cases h
      | ok f =>
        cases hrest : ds.mapM fieldName with
        | error _ =>
          rw [hd, hrest] at h
          cases h
        | ok fs =>
          rw [hd, hrest] at h
          cases h
          exact List.cons_ne_nil f fs
  · cases h
  · cases h
  · cases h

/-- A call of the constructor under an operator that takes one argument. -/
theorem evaluate_make (hforce : InForce type fields w)
    (hfields : w.environment.fields? type = some fields) (hne : fields ≠ [])
    (hargs : evaluateAll (evaluate limit) es w = (.ok vs, w'))
    (hcount : es.length = fields.length) :
    evaluate (limit + 1) (.list (.name (make type).name :: es)) w = (.ok (.struct type vs), w') := by
  obtain ⟨k, rfl⟩ : ∃ k, limit = k + 1 := by
    cases es with
    | nil => exact absurd (List.length_eq_zero_iff.1 hcount.symm) hne
    | cons e es =>
      obtain ⟨_, _, _, _, hfirst, _⟩ := evaluateAll_cons hargs
      exact exists_limit hfirst
  rw [evaluate_call (hforce _ (by simp [structOperators]))]
  exact runMake_eq hfields hcount hargs

theorem laws_of_inForce (hforce : InForce type fields w)
    (hfields : w.environment.fields? type = some fields) (hne : fields ≠ [])
    (hnodup : fields.Nodup) : Laws type fields w := by
  have haccess {field : String} (hfield : field ∈ fields) :
      w.environment.resolve (access type field).name = .ok (.special (access type field)) :=
    hforce _ (mem_structOperators.2 (.inr (.inl ⟨field, hfield, rfl⟩)))
  have hisA : w.environment.resolve (isA type).name = .ok (.special (isA type)) :=
    hforce _ (mem_structOperators.2 (.inl rfl))
  have hmake : w.environment.resolve (make type).name = .ok (.special (make type)) :=
    hforce _ (mem_structOperators.2 (.inr (.inr rfl)))
  constructor
  case select =>
    intro limit es vs w' hargs hcount hspares i field hfield
    have hvs : vs.length = fields.length := (length_of_evaluateAll hargs).trans hcount
    obtain ⟨hi, rfl⟩ := List.getElem?_eq_some_iff.1 hfield
    refine ⟨vs[i], List.getElem?_eq_getElem _, ?_⟩
    rw [evaluate_call (haccess (List.getElem_mem hi))]
    exact runAccess_eq (evaluate_make hforce hfields hne hargs hcount)
      (hspares.fields?.trans hfields) hnodup hvs hfield (List.getElem?_eq_getElem _)
  case recognize =>
    intro limit es vs w' hargs hcount
    rw [evaluate_call hisA]
    exact runIsA_eq (evaluate_make hforce hfields hne hargs hcount) true (by simp)
  case reject =>
    intro limit e v w' he hv
    obtain ⟨k, rfl⟩ := exists_limit he
    constructor
    · rw [evaluate_call hisA]
      exact runIsA_eq he false (by simpa using hv)
    · intro field hfield
      rw [evaluate_call (haccess hfield)]
      exact runAccess_notInstance he hv
  case count =>
    intro es hcount
    constructor
    · intro ev
      exact runMake_count hfields hcount
    · intro limit
      rw [evaluate_call hmake]
      exact runMake_count hfields hcount

/-- When a struct type is declared its operators are in force, and at any time after, as long as the
type has not been registered again and the operators are still in force, instances give back the
values they were made of. -/
theorem struct_laws {d : Datum} {w₀ w : World}
    (hrun : run ev exprs .defineStruct w₀ = (.ok d, w))
    (hdeclaration : structDeclaration exprs = .ok (type, fields)) (hnodup : fields.Nodup)
    (htype : superName? type = none)
    (hmake : ∀ field ∈ fields, (make type).name ≠ (access type field).name) :
    InForce type fields w ∧
      ∀ w', w.Spares type w' → InForce type fields w' → Laws type fields w' := by
  have hw : w = { w₀ with environment := declared type fields w₀.environment } := by
    rw [run, runDefineStruct_eq hdeclaration] at hrun
    cases hrun
    rfl
  have hfields : w.environment.fields? type = some fields := by
    rw [hw]
    exact fields?_declared w₀.environment
  refine ⟨hw ▸ inForce_declared hnodup htype hmake, fun w' hspares hforce => ?_⟩
  exact laws_of_inForce hforce (hspares.fields?.trans hfields)
    (structDeclaration_ne_nil hdeclaration) hnodup

/-- A type of points, used in a scope that was entered after its declaration. -/
theorem struct_laws_point :
    let point := (run (evaluate 1) [.name "point", .list [.name "x", .name "y"]] .defineStruct
      ⟨.empty, default⟩).2
    let w := point.replay [.enter, .bind [("x", .bool true)]]
    InForce "point" ["x", "y"] w ∧
    evaluate 3 (.list [.name "point-y", .list [.name "make-point", .string "a", .name "x"]]) w =
      (.ok (.bool true), w) := by
  intro point w
  have hrun : run (evaluate 1) [.name "point", .list [.name "x", .name "y"]] .defineStruct
      ⟨.empty, default⟩ = (.ok .empty, point) := rfl
  have hdeclaration : structDeclaration [.name "point", .list [.name "x", .name "y"]] =
      .ok ("point", ["x", "y"]) := rfl
  have hlaws := struct_laws hrun hdeclaration (by decide) (by decide) (by decide)
  have hforce : InForce "point" ["x", "y"] w := by
    intro f hf
    rcases mem_structOperators.1 hf with rfl | ⟨field, hfield, rfl⟩ | rfl
    · rfl
    · simp only [List.mem_cons, List.not_mem_nil, or_false] at hfield
      rcases hfield with rfl | rfl <;> rfl
    · rfl
  have hspares : point.Spares "point" w := ⟨[.enter, .bind [("x", .bool true)]], rfl, by simp⟩
  have hargs : evaluateAll (evaluate 1) [.string "a", .name "x"] w =
      (.ok [.string "a", .bool true], w) := rfl
  obtain ⟨v, hv, hselect⟩ := (hlaws.2 w hspares hforce).select hargs rfl (.refl "point" w) 1 "y" rfl
  cases hv
  exact ⟨hforce, hselect⟩

end SpecialForm

end DynamicLisp
