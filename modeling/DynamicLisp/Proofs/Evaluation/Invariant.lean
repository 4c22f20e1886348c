import DynamicLisp.Proofs.Evaluation.Failure
import DynamicLisp.Proofs.Evaluation.StructOperators
import DynamicLisp.Proofs.Server.Requests

/-! Invariants of environments. An invariant that single changes keep, given what is known of the
values that occur and of the expressions that are evaluated, is kept by every evaluation, however it
ends, and holds at every moment of it (`Invariant.evaluate`, `Invariant.evaluateUntil`). -/
namespace DynamicLisp

/-- The struct type is registered. -/
def Environment.Knows (e : Environment) (type : String) : Prop := (e.fields? type).isSome

open Classical in
/-- Watches for the moments at which something holds. -/
noncomputable def moments (P : Datum → World → Prop) (d : Datum) (w : World) : Bool :=
  decide (P d w)

theorem moments_iff {P : Datum → World → Prop} {d : Datum} {w : World} :
    moments P d w = true ↔ P d w := by
  simp [moments]

theorem moments_eq_false {P : Datum → World → Prop} {d : Datum} {w : World} :
    moments P d w = false ↔ ¬ P d w := by
  simp [moments]

/-- What evaluations keep, and what they rely on. -/
structure Invariant where
  /-- What holds of the environment. -/
  Sound : Environment → Prop
  /-- What holds of values where some struct types are known. -/
  Value : (String → Prop) → Datum → Prop
  /-- What holds of the expressions that are evaluated. -/
  Code : Datum → Prop
  /-- The struct types that may be declared in an environment. -/
  Declares : Environment → String → List String → Prop
  /-- The ways in which an evaluation may stop. -/
  Stops : Stop → Prop
  mono {known known' : String → Prop} {d : Datum} :
    (∀ t, known t → known' t) → Value known d → Value known' d
  values (known : String → Prop) : ClosedValues (Value known)
  closure {known : String → Prop} {params : List String} {variadic : Bool} {body : Datum} :
    (variadic = true → params ≠ []) → Code body → Value known (.closure params variadic body)
  body {known : String → Prop} {params : List String} {variadic : Bool} {body : Datum} :
    Value known (.closure params variadic body) → Code body
  instance_iff {known : String → Prop} {type : String} {fields : List Datum} :
    known type → ((∀ v ∈ fields, Value known v) ↔ Value known (.struct type fields))
  registered {known : String → Prop} {f : SpecialForm} {type : String} {fields : List String} :
    Value known (.special f) → f ∈ SpecialForm.structOperators type fields →
      known type ∨ Stops (.error (.undefinedStruct type))
  symbol (s : Symbol) : Code (.symbol s)
  items {ds : List Datum} : Code (.list ds) ↔ ∀ d ∈ ds, Code d
  quoted {known : String → Prop} {d : Datum} : Code (.quote d) → Value known d.toValue
  /-- Expressions that stand for themselves. -/
  literal {known : String → Prop} {d : Datum} : Code d → (∀ s, d ≠ .symbol s) →
    (∀ ds, d ≠ .list ds) → (∀ d', d ≠ .quote d') → Value known d
  read {text : List Char} {d : Datum} : d ∈ (Script.ofChars text).exprs → Code d
  expr {known : String → Prop} {d : Datum} : Value known d →
    Gives (fun e => Stops (.error e)) Code d.toExpr
  ordinary {s : Stop} : s.Ordinary → Stops s
  resolve {e : Environment} {x : String} {d : Datum} :
    Sound e → e.resolve x = .ok d → Value e.Knows d
  enter {e : Environment} : Sound e → Sound e.enter
  exit {e f g : Environment} : Sound e → Sound f → e.enter.Framed f → f.exit? = some g → Sound g
  update {e : Environment} {bindings : List (String × Datum)} : Sound e → 0 < e.depth →
    (∀ b ∈ bindings, Value e.Knows b.2) → Sound (e.update bindings)
  define {e : Environment} {x : String} {d : Datum} : Sound e → x ∉ SpecialForm.reservedWords →
    Value e.Knows d → Sound (e.define x d)
  declare {e : Environment} {type : String} {fields : List String} : Sound e →
    Declares e type fields → Sound (SpecialForm.declared type fields e)

theorem Checks.resolve (e : Environment) (x : String) :
    Checks (fun d => e.resolve x = .ok d) (e.resolve x) := by
  cases h : e.resolve x with
  | ok d => rfl
  | error err =>
    unfold Environment.resolve at h
    split at h
    · cases hfound : e.getSuper? _ <;> rw [hfound] at h <;> cases h
      exact Checks.fail nofun
    · cases hfound : e.get? x <;> rw [hfound] at h <;> cases h
      exact Checks.fail nofun

namespace Invariant

variable {I : Invariant} {α β : Type} {Q : (String → Prop) → α → Prop}
  {Q' : (String → Prop) → β → Prop} {w : World}

/-- What has become of a world in which an action was run: the scope discipline and the invariant
have been kept, and the result is as expected. -/
structure Runs (I : Invariant) (Q : (String → Prop) → α → Prop) (w : World)
    (p : Except Stop α × World) : Prop where
  framed : w.environment.Framed p.2.environment
  sound : I.Sound p.2.environment
  result : Gives I.Stops (Q p.2.environment.Knows) p.1

/-- An evaluator that keeps the invariant and gives values. -/
def Keeps (I : Invariant) (ev : Evaluator) : Prop :=
  ∀ d w, I.Code d → I.Sound w.environment → I.Runs I.Value w (ev d w)

namespace Runs

theorem pure {a : α} (hw : I.Sound w.environment) (ha : Q w.environment.Knows a) :
    I.Runs Q w ((Pure.pure a : Action α) w) := ⟨.refl _, hw, ha⟩

theorem stop {s : Stop} (hw : I.Sound w.environment) (hs : I.Stops s) :
    I.Runs Q w ((Action.stop s : Action α) w) := ⟨.refl _, hw, hs⟩

theorem fail {e : LispError} (hw : I.Sound w.environment) (he : e.Ordinary) :
    I.Runs Q w ((Action.fail e : Action α) w) := stop hw (I.ordinary he.stop)

theorem bind_of {x : Action α} {f : α → Action β} (hx : I.Runs Q w (x w))
    (hf : ∀ a w', x w = (.ok a, w') → w.environment.Framed w'.environment →
      I.Sound w'.environment → Q w'.environment.Knows a → I.Runs Q' w' (f a w')) :
    I.Runs Q' w ((x >>= f) w) := by
  obtain ⟨hframed, hsound, hresult⟩ := hx
  rcases Action.bind_cases x f w with ⟨s, w', hstop, h⟩ | ⟨a, w', hstep, h⟩
  · rw [hstop] at hframed hsound hresult
    rw [h]
    exact ⟨hframed, hsound, hresult⟩
  · rw [hstep] at hframed hsound hresult
    rw [h]
    have hrest := hf a w' hstep hframed hsound hresult
    exact ⟨hframed.trans hrest.framed, hrest.sound, hrest.result⟩

theorem bind {x : Action α} {f : α → Action β} (hx : I.Runs Q w (x w))
    (hf : ∀ a w', w.environment.Framed w'.environment → I.Sound w'.environment →
      Q w'.environment.Knows a → I.Runs Q' w' (f a w')) : I.Runs Q' w ((x >>= f) w) :=
  .bind_of hx fun a w' _ => hf a w'

theorem ofExcept {r : Except Stop α} (hw : I.Sound w.environment)
    (hr : Gives I.Stops (Q w.environment.Knows) r) : I.Runs Q w (Action.ofExcept r w) :=
  ⟨.refl _, hw, hr⟩

theorem host (hw : I.Sound w.environment) : I.Runs (fun _ _ => True) w (Action.host w) :=
  ⟨.refl _, hw, trivial⟩

theorem modifyHost (hw : I.Sound w.environment) (f : Host → Host) :
    I.Runs (fun _ _ => True) w (Action.modifyHost f w) := ⟨.refl _, hw, trivial⟩

theorem check {P : α → Prop} {r : Except LispError α} (hw : I.Sound w.environment)
    (hr : Checks P r) : I.Runs (fun _ => P) w ((liftM r : Action α) w) := by
  have hlift : Gives I.Stops P (liftM r : Except Stop α) :=
    hr.mapError fun _ he => I.ordinary he.stop
  exact ofExcept hw hlift

theorem liftHost (hw : I.Sound w.environment) (r : Except HostFault α) :
    I.Runs (fun _ _ => True) w ((liftM r : Action α) w) := by
  cases r with
  | ok a => exact .pure hw trivial
  | error f => exact .stop hw (I.ordinary ⟨nofun, nofun⟩)

theorem access {report : FileError → LispError} (hw : I.Sound w.environment)
    (hreport : ∀ e, (report e).Ordinary) (r : Except HostFault α) :
    I.Runs (fun _ _ => True) w (Action.access report r w) := by
  cases r with
  | ok a => exact .pure hw trivial
  | error f =>
    cases f with
    | system e => exact .fail hw (hreport e)
    | nulInPath | notText => exact .stop hw (I.ordinary ⟨nofun, nofun⟩)

/-- Only the struct types that the action has registered are left of what it did in its scope. -/
theorem inScope {x : Action α} (hw : I.Sound w.environment)
    (hx : I.Runs Q w.enter (x w.enter)) : I.Runs Q w (Action.inScope x w) := by
  obtain ⟨hframed, hsound, hresult⟩ := hx
  obtain ⟨e, hexit, hscopes, hframed'⟩ := hframed.exit
  have hknows : e.Knows = (x w.enter).2.environment.Knows := by
    funext t
    rw [Environment.Knows, Environment.Knows, Environment.fields?, Environment.structs_exit hexit]
    rfl
  rw [Action.inScope_of_exit hexit]
  refine ⟨hframed', I.exit hw hsound hframed hexit, ?_⟩
  rw [hknows]
  exact hresult

end Runs

/-- In a scope of its own an action may bind whatever it likes. -/
theorem depth_enter_pos (w : World) : 0 < w.enter.environment.depth := Nat.succ_pos _

theorem Runs.update (bindings : List (String × Datum)) (hw : I.Sound w.environment)
    (hdepth : 0 < w.environment.depth) (hb : ∀ b ∈ bindings, I.Value w.environment.Knows b.2) :
    I.Runs (fun _ _ => True) w (Action.modifyEnvironment (·.update bindings) w) :=
  ⟨.update bindings, I.update hw hdepth hb, trivial⟩

variable {ev : Evaluator} (hev : I.Keeps ev)
include hev

theorem evaluateAll (hw : I.Sound w.environment) (ds : List Datum) (hds : ∀ d ∈ ds, I.Code d) :
    I.Runs (fun known vs => ∀ v ∈ vs, I.Value known v) w (evaluateAll ev ds w) := by
  induction ds generalizing w with
  | nil => exact .pure hw (List.forall_mem_nil _)
  | cons d ds ih =>
    obtain ⟨hd, hds⟩ := List.forall_mem_cons.1 hds
    refine .bind (hev d w hd hw) fun v w₁ _ hw₁ hv => ?_
    refine .bind (ih hw₁ hds) fun vs w₂ hframed hw₂ hvs => ?_
    exact .pure hw₂ (List.forall_mem_cons.2 ⟨I.mono hframed.types hv, hvs⟩)

theorem evaluateEach (hw : I.Sound w.environment) (ds : List Datum) (hds : ∀ d ∈ ds, I.Code d) :
    I.Runs (fun _ _ => True) w (evaluateEach ev ds w) := by
  induction ds generalizing w with
  | nil => exact .pure hw trivial
  | cons d ds ih =>
    obtain ⟨hd, hds⟩ := List.forall_mem_cons.1 hds
    exact .bind (hev d w hd hw) fun _ _ _ hw₁ _ => ih hw₁ hds

theorem applyClosure {params : List String} {variadic : Bool} {body : Datum} {args : List Datum}
    (hw : I.Sound w.environment) (hbody : I.Code body)
    (hargs : ∀ a ∈ args, I.Value w.environment.Knows a) :
    I.Runs I.Value w (applyClosure ev params variadic body args w) := by
  have hbindings := Checks.bindArguments (V := I.Value w.environment.Knows)
    (fun _ => (I.values _).list.2) hargs params variadic
  refine .inScope hw (.bind (.check (I.enter hw) hbindings) fun bindings w₁ hframed hw₁ hb => ?_)
  have hdepth : 0 < w₁.environment.depth := by
    rw [hframed.depth_eq]
    exact depth_enter_pos w
  have hvalues : ∀ b ∈ bindings, I.Value w₁.environment.Knows b.2 := fun b hmem =>
    I.mono hframed.types (hb b hmem)
  exact .bind (.update _ hw₁ hdepth hvalues) fun _ w₂ _ hw₂ _ => hev body w₂ hbody hw₂

theorem runDefine (hw : I.Sound w.environment) (exprs : List Datum)
    (hexprs : ∀ d ∈ exprs, I.Code d) : I.Runs I.Value w (SpecialForm.runDefine ev exprs w) := by
  unfold SpecialForm.runDefine
  split
  · rename_i s value rest
    have hvalue : I.Code value := hexprs value (by simp)
    refine .bind (.check hw (Checks.expectExact _ _)) fun _ w₁ _ hw₁ _ => ?_
    dsimp only
    split
    · exact .bind (Q := fun _ _ => False) (.fail hw₁ nofun) fun _ _ _ _ h => h.elim
    · rename_i hword
      refine .bind (hev value w₁ hvalue hw₁) fun d w₂ _ hw₂ hd => ?_
      have hdefine : I.Runs (fun _ _ => True) w₂ (Action.define s.name d w₂) :=
        ⟨.update [(s.name, d)], I.define hw₂ hword hd, trivial⟩
      exact .bind hdefine fun _ _ _ hw₃ _ => .pure hw₃ (I.values _).empty
  · exact .fail hw nofun
  · rename_i target params body rest
    obtain ⟨htarget, hbody⟩ := List.forall_mem_cons.1 hexprs
    obtain ⟨htarget, hparams⟩ := List.forall_mem_cons.1 (I.items.1 htarget)
    have hbodyOf : I.Code (SpecialForm.bodyOf (body :: rest)) := by
      unfold SpecialForm.bodyOf
      split
      · exact hbody _ (by simp_all)
      · exact I.items.2 (List.forall_mem_cons.2 ⟨I.symbol _, hbody⟩)
    have hlambda : I.Code (.list [.name "lambda", .list params,
        SpecialForm.bodyOf (body :: rest)]) := by
      refine I.items.2 (List.forall_mem_cons.2 ⟨I.symbol _, ?_⟩)
      exact List.forall_mem_cons.2 ⟨I.items.2 hparams, List.forall_mem_singleton.2 hbodyOf⟩
    refine hev _ w (I.items.2 (List.forall_mem_cons.2 ⟨I.symbol _, ?_⟩)) hw
    exact List.forall_mem_cons.2 ⟨htarget, List.forall_mem_singleton.2 hlambda⟩
  · exact .fail hw nofun
  · exact .fail hw nofun

omit hev in
theorem closureOf (known : String → Prop) (exprs : List Datum) (hexprs : ∀ d ∈ exprs, I.Code d) :
    Checks (I.Value known) (SpecialForm.closureOf exprs) := by
  unfold SpecialForm.closureOf
  split
  · exact .bind (Checks.parameters _) fun p hp => I.closure hp (hexprs _ (by simp))
  · exact Checks.fail nofun
  · exact Checks.fail nofun

theorem runConditional (hw : I.Sound w.environment) (exprs : List Datum)
    (hexprs : ∀ d ∈ exprs, I.Code d) :
    I.Runs I.Value w (SpecialForm.runConditional ev exprs w) := by
  unfold SpecialForm.runConditional
  split
  · rename_i test yes no
    refine .bind (hev test w (hexprs _ (by simp)) hw) fun d w₁ _ hw₁ _ => ?_
    split
    · refine hev _ w₁ (hexprs _ ?_) hw₁
      split <;> simp
    · exact .fail hw₁ nofun
  · exact .fail hw nofun

theorem chooseClause (hw : I.Sound w.environment) (clauses : List Datum)
    (hclauses : ∀ d ∈ clauses, I.Code d) :
    I.Runs (fun _ chosen => ∀ d ∈ chosen, I.Code d) w (SpecialForm.chooseClause ev clauses w) := by
  fun_induction SpecialForm.chooseClause ev clauses generalizing w with
  | case1 => exact .pure hw (by rintro _ ⟨⟩)
  | case2 test value clauses ih =>
    obtain ⟨hclause, hclauses⟩ := List.forall_mem_cons.1 hclauses
    obtain ⟨htest, hvalue⟩ := List.forall_mem_cons.1 (I.items.1 hclause)
    refine .bind (hev test w htest hw) fun d w₁ _ hw₁ _ => ?_
    split
    · exact .pure hw₁ fun d hd => hvalue d (by simp_all)
    · exact ih hw₁ hclauses
    · exact .fail hw₁ (by rintro _ ⟨⟩)
  | case3 => exact .fail hw (by rintro _ ⟨⟩)
  | case4 => exact .fail hw (by rintro _ ⟨⟩)

theorem runBranches (hw : I.Sound w.environment) (clauses : List Datum)
    (hclauses : ∀ d ∈ clauses, I.Code d) :
    I.Runs I.Value w (SpecialForm.runBranches ev clauses w) := by
  have helse : I.Runs (fun _ _ => True) w.enter (Action.define "else" (.bool true) w.enter) :=
    .update [("else", .bool true)] (I.enter hw) (depth_enter_pos w)
      (List.forall_mem_singleton.2 ((I.values _).bool true))
  refine .bind (.inScope hw (.bind helse fun _ w₁ _ hw₁ _ => chooseClause hev hw₁ clauses hclauses))
    fun chosen w₁ _ hw₁ hchosen => ?_
  cases chosen with
  | none => exact .pure hw₁ (I.values _).empty
  | some value => exact hev value w₁ (hchosen value rfl) hw₁

theorem bindAll (hw : I.Sound w.environment) (hdepth : 0 < w.environment.depth)
    (pairs : List Datum) (hpairs : ∀ d ∈ pairs, I.Code d) :
    I.Runs (fun _ _ => True) w (SpecialForm.bindAll ev pairs w) := by
  fun_induction SpecialForm.bindAll ev pairs generalizing w with
  | case1 => exact .pure hw trivial
  | case2 s value rest ih =>
    obtain ⟨hpair, hrest⟩ := List.forall_mem_cons.1 hpairs
    have hvalue : I.Code value := I.items.1 hpair value (by simp)
    refine .bind (hev value w hvalue hw) fun d w₁ hframed₁ hw₁ hd => ?_
    have hdepth₁ : 0 < w₁.environment.depth := hframed₁.depth_eq ▸ hdepth
    have hdefine : I.Runs (fun _ _ => True) w₁ (Action.define s.name d w₁) :=
      .update [(s.name, d)] hw₁ hdepth₁ (List.forall_mem_singleton.2 hd)
    refine .bind hdefine fun _ w₂ hframed₂ hw₂ _ => ?_
    exact ih hw₂ (hframed₂.depth_eq ▸ hdepth₁) hrest
  | case3 => exact .fail hw (by rintro _ ⟨⟩)
  | case4 => exact .fail hw (by rintro _ ⟨⟩)
  | case5 => exact .fail hw (by rintro _ ⟨⟩)

theorem runBindings (hw : I.Sound w.environment) (exprs : List Datum)
    (hexprs : ∀ d ∈ exprs, I.Code d) : I.Runs I.Value w (SpecialForm.runBindings ev exprs w) := by
  unfold SpecialForm.runBindings
  split
  · rename_i pairs body
    have hpairs : ∀ d ∈ pairs, I.Code d := I.items.1 (hexprs _ (by simp))
    have hall := bindAll hev (I.enter hw) (depth_enter_pos w) pairs hpairs
    exact .inScope hw (.bind hall fun _ w₁ _ hw₁ _ => hev body w₁ (hexprs _ (by simp)) hw₁)
  · exact .fail hw nofun
  · exact .fail hw nofun

omit hev in
theorem runDefineStruct (hw : I.Sound w.environment) (exprs : List Datum)
    (hdeclares : ∀ type fields, SpecialForm.structDeclaration exprs = .ok (type, fields) →
      I.Declares w.environment type fields) :
    I.Runs I.Value w (SpecialForm.runDefineStruct exprs w) := by
  cases h : SpecialForm.structDeclaration exprs with
  | error e =>
    have hcheck := Checks.structDeclaration exprs
    rw [h] at hcheck
    rw [SpecialForm.runDefineStruct, h]
    exact .fail hw hcheck
  | ok declaration =>
    obtain ⟨type, fields⟩ := declaration
    rw [SpecialForm.runDefineStruct_eq h]
    exact ⟨.trans (.addStruct type fields) (.update _), I.declare hw (hdeclares type fields h),
      (I.values _).empty⟩

omit hev in
/-- The fields of the type of an operator can be looked up, or not being able to is a way to stop. -/
theorem registeredFields {f : SpecialForm} {type : String} {fields : List String}
    (hw : I.Sound w.environment) (hf : I.Value w.environment.Knows (.special f))
    (htype : f ∈ SpecialForm.structOperators type fields) :
    I.Runs (fun known _ => known type) w (SpecialForm.registeredFields type w) := by
  rw [SpecialForm.registeredFields_apply]
  refine ⟨.refl _, hw, ?_⟩
  cases hfields : w.environment.fields? type with
  | some fields => exact Option.isSome_of_eq_some hfields
  | none =>
    have hunknown : ¬ w.environment.Knows type := by simp [Environment.Knows, hfields]
    exact (I.registered hf htype).resolve_left hunknown

theorem runMake {type : String} (hw : I.Sound w.environment)
    (hf : I.Value w.environment.Knows (.special (.make type))) (exprs : List Datum)
    (hexprs : ∀ d ∈ exprs, I.Code d) : I.Runs I.Value w (SpecialForm.runMake ev type exprs w) := by
  have hoperator : .make type ∈ SpecialForm.structOperators type [] := by
    simp [SpecialForm.mem_structOperators]
  refine .bind (registeredFields hw hf hoperator) fun fields w₁ _ hw₁ hknown => ?_
  refine .bind (.check hw₁ (Checks.expectExact _ _)) fun _ w₂ hframed₂ hw₂ _ => ?_
  rw [mapM_eq_evaluateAll]
  refine .bind (evaluateAll hev hw₂ exprs hexprs) fun values w₃ hframed₃ hw₃ hvalues => ?_
  have hknown₃ : w₃.environment.Knows type := hframed₃.types type (hframed₂.types type hknown)
  exact .pure hw₃ ((I.instance_iff hknown₃).1 hvalues)

theorem runIsA (hw : I.Sound w.environment) (type : String) (exprs : List Datum)
    (hexprs : ∀ d ∈ exprs, I.Code d) : I.Runs I.Value w (SpecialForm.runIsA ev type exprs w) := by
  unfold SpecialForm.runIsA
  split
  · refine .bind (hev _ w (hexprs _ (by simp)) hw) fun d w₁ _ hw₁ _ => ?_
    split <;> exact .pure hw₁ ((I.values _).bool _)
  · exact .fail hw nofun

theorem runAccess {type field : String} (hw : I.Sound w.environment)
    (hf : I.Value w.environment.Knows (.special (.access type field))) (exprs : List Datum)
    (hexprs : ∀ d ∈ exprs, I.Code d) :
    I.Runs I.Value w (SpecialForm.runAccess ev type field exprs w) := by
  unfold SpecialForm.runAccess
  split
  · refine .bind (hev _ w (hexprs _ (by simp)) hw) fun d w₁ hframed₁ hw₁ hd => ?_
    split
    · rename_i type' values
      dsimp only
      split
      · exact .bind (Q := fun _ _ => False) (.fail hw₁ nofun) fun _ _ _ _ h => h.elim
      · rename_i hsame
        obtain rfl : type' = type := not_not.1 hsame
        have hoperator : .access type' field ∈ SpecialForm.structOperators type' [field] := by
          simp [SpecialForm.mem_structOperators]
        refine .bind (registeredFields hw₁ (I.mono hframed₁.types hf) hoperator)
          fun fields w₂ hframed₂ hw₂ hknown => ?_
        have hvalues := (I.instance_iff hknown).2 (I.mono hframed₂.types hd)
        exact .ofExcept hw₂ ((Checks.fieldOf hvalues _ _ _).mapError fun _ he => I.ordinary he.stop)
    · exact .fail hw₁ nofun
  · exact .fail hw nofun

theorem special (hw : I.Sound w.environment) (f : SpecialForm)
    (hf : I.Value w.environment.Knows (.special f)) (exprs : List Datum)
    (hexprs : ∀ d ∈ exprs, I.Code d)
    (hdeclares : f = .defineStruct → ∀ type fields,
      SpecialForm.structDeclaration exprs = .ok (type, fields) →
        I.Declares w.environment type fields) :
    I.Runs I.Value w (f.run ev exprs w) := by
  cases f with
  | define => exact runDefine hev hw exprs hexprs
  | lambda =>
    exact .ofExcept hw ((closureOf _ exprs hexprs).mapError fun _ he => I.ordinary he.stop)
  | conditional => exact runConditional hev hw exprs hexprs
  | branches => exact runBranches hev hw exprs hexprs
  | bindings => exact runBindings hev hw exprs hexprs
  | defineStruct => exact runDefineStruct hw exprs (hdeclares rfl)
  | make type => exact runMake hev hw hf exprs hexprs
  | isA type => exact runIsA hev hw type exprs hexprs
  | access type field => exact runAccess hev hw hf exprs hexprs

/-! ### Files and templates -/

omit hev in
theorem resolveFile (hw : I.Sound w.environment) (name : String) :
    I.Runs (fun _ _ => True) w (DynamicLisp.resolveFile name w) := by
  refine .bind (.host hw) fun h w₁ _ hw₁ _ => .bind (.liftHost hw₁ _) fun found w₂ _ hw₂ _ => ?_
  cases found with
  | some p => exact .pure hw₂ trivial
  | none => exact .fail hw₂ nofun

omit hev in
theorem readSource (hw : I.Sound w.environment) (text : List Char) :
    I.Runs (fun _ ds => ∀ d ∈ ds, I.Code d) w
      ((liftM (DynamicLisp.readSource text) : Action (List Datum)) w) :=
  .check hw (Checks.readSource fun _ hd => I.read hd)

theorem importFile (hw : I.Sound w.environment) (p : Path) :
    I.Runs I.Value w (DynamicLisp.importFile ev p w) := by
  refine .bind (.host hw) fun h w₁ _ hw₁ _ => ?_
  refine .bind (.access hw₁ (by rintro _ _ ⟨⟩) _) fun text w₂ _ hw₂ _ => ?_
  refine .bind (readSource hw₂ text) fun exprs w₃ _ hw₃ hexprs => ?_
  exact .bind (evaluateEach hev hw₃ exprs hexprs) fun _ _ _ hw₄ _ => .pure hw₄ (I.values _).empty

theorem interpolate (hw : I.Sound w.environment) (text : List Char) :
    I.Runs (fun _ _ => True) w (DynamicLisp.interpolate ev text w) := by
  refine .bind (readSource hw text) fun exprs w₁ _ hw₁ hexprs => ?_
  cases exprs with
  | nil => exact .fail hw₁ nofun
  | cons d exprs =>
    have hd := hev d w₁.enter (hexprs d (by simp)) (I.enter hw₁)
    exact .bind (.inScope hw₁ hd) fun _ _ _ hw₂ _ => .pure hw₂ trivial

theorem fillIn (hw : I.Sound w.environment) (ss : List Section) :
    I.Runs (fun _ _ => True) w (DynamicLisp.fillIn ev ss w) := by
  fun_induction DynamicLisp.fillIn ev ss generalizing w with
  | case1 => exact .pure hw trivial
  | case2 text ss ih => exact .bind (ih hw) fun _ _ _ hw₁ _ => .pure hw₁ trivial
  | case3 text ss ih =>
    refine .bind (interpolate hev hw text) fun _ w₁ _ hw₁ _ => ?_
    exact .bind (ih hw₁) fun _ _ _ hw₂ _ => .pure hw₂ trivial

/-! ### Intrinsics -/

omit hev in
theorem runExit (hw : I.Sound w.environment) (args : List Datum) :
    I.Runs I.Value w (Intrinsic.runExit args w) := by
  have hexit (code : Int) : I.Stops (.exit code) := I.ordinary ⟨nofun, nofun⟩
  unfold Intrinsic.runExit
  split
  · exact .stop hw (hexit 0)
  · exact .bind (.check hw (Checks.number _)) fun _ _ _ hw₁ _ => .stop hw₁ (hexit _)
  · exact .fail hw nofun

omit hev in
theorem runPrint (hw : I.Sound w.environment) (terminator : String) (args : List Datum) :
    I.Runs I.Value w (Intrinsic.runPrint terminator args w) :=
  .bind (.modifyHost hw _) fun _ _ _ hw₁ _ => .pure hw₁ (I.values _).empty

omit hev in
theorem runReadLine (hw : I.Sound w.environment) (args : List Datum) :
    I.Runs I.Value w (Intrinsic.runReadLine args w) := by
  refine .bind (.check hw (Checks.expect 0 args)) fun _ w₁ _ hw₁ _ => ?_
  refine .bind (.host hw₁) fun h w₂ _ hw₂ _ => ?_
  cases h.readLine? with
  | none => exact .fail hw₂ nofun
  | some p => exact .bind (.modifyHost hw₂ _) fun _ _ _ hw₃ _ => .pure hw₃ ((I.values _).string _)

omit hev in
/-- An argument that is checked without a look at what it is. -/
theorem oneString {args : List Datum} (hw : I.Sound w.environment) {f : String → Action α}
    (hf : ∀ s w₁, w.environment.Framed w₁.environment → I.Sound w₁.environment →
      I.Runs Q w₁ (f s w₁)) :
    I.Runs Q w ((do
      let d ← Arguments.one args
      let s ← Arguments.string d
      f s : Action α) w) := by
  refine .bind (.check hw (Checks.one (V := fun _ => True) fun _ _ => trivial)) fun d w₁ hframed₁ hw₁ _ => ?_
  refine .bind (.check hw₁ (Checks.string d)) fun s w₂ hframed₂ hw₂ _ => ?_
  exact hf s w₂ (hframed₁.trans hframed₂) hw₂

omit hev in
theorem runReadFile (hw : I.Sound w.environment) (args : List Datum) :
    I.Runs I.Value w (Intrinsic.runReadFile args w) := by
  refine oneString hw fun s w₁ _ hw₁ => .bind (.host hw₁) fun h w₂ _ hw₂ _ => ?_
  exact .bind (.access hw₂ (by rintro _ _ ⟨⟩) _) fun _ _ _ hw₃ _ => .pure hw₃ ((I.values _).string _)

omit hev in
theorem runWriteFile (hw : I.Sound w.environment) (args : List Datum) :
    I.Runs I.Value w (Intrinsic.runWriteFile args w) := by
  have htwo : Checks (fun _ => True) (Arguments.two args) :=
    (Checks.two (V := fun _ => True) fun _ _ => trivial).mono fun _ _ => trivial
  refine .bind (.check hw htwo) fun (d, c) w₁ _ hw₁ _ => ?_
  refine .bind (.check hw₁ (Checks.string d)) fun name w₂ _ hw₂ _ => ?_
  refine .bind (.check hw₂ (Checks.string c)) fun content w₃ _ hw₃ _ => ?_
  refine .bind (.host hw₃) fun h w₄ _ hw₄ _ => ?_
  refine .bind (.access hw₄ (by rintro _ _ ⟨⟩) _) fun files w₅ _ hw₅ _ => ?_
  exact .bind (.modifyHost hw₅ _) fun _ _ _ hw₆ _ => .pure hw₆ (I.values _).empty

theorem runEval (hw : I.Sound w.environment) (args : List Datum)
    (hargs : ∀ a ∈ args, I.Value w.environment.Knows a) :
    I.Runs I.Value w (Intrinsic.runEval ev args w) := by
  refine .bind (.check hw (Checks.one hargs)) fun d w₁ _ hw₁ hd => ?_
  have hexpr : Gives I.Stops I.Code (liftM d.toExpr : Except Stop Datum) :=
    (I.expr hd).mapError fun _ he => he
  have hrun : I.Runs (fun _ => I.Code) w₁ ((liftM d.toExpr : Action Datum) w₁) :=
    .ofExcept hw₁ hexpr
  exact .bind hrun fun expr w₂ _ hw₂ hcode => hev expr w₂ hcode hw₂

theorem runFormat (hw : I.Sound w.environment) (args : List Datum) :
    I.Runs I.Value w (Intrinsic.runFormat ev args w) := by
  refine oneString hw fun template w₁ _ hw₁ => ?_
  have hsplit : Checks (fun _ => True)
      ((Template.split template.toList).mapError LispError.malformed) := by
    cases Template.split template.toList with
    | error e => exact Checks.fail (e := .malformed e) nofun
    | ok ss => trivial
  refine .bind (.check hw₁ hsplit) fun ss w₂ _ hw₂ _ => ?_
  exact .bind (fillIn hev hw₂ ss) fun _ _ _ hw₃ _ => .pure hw₃ ((I.values _).string _)

theorem runLoad (hw : I.Sound w.environment) (args : List Datum) :
    I.Runs I.Value w (Intrinsic.runLoad ev args w) :=
  oneString hw fun name _ _ hw₁ =>
    .bind (resolveFile hw₁ name) fun p _ _ hw₂ _ => importFile hev hw₂ p

/-- The induction is on what `apply` hands on to another intrinsic. -/
theorem intrinsic (hw : I.Sound w.environment) (f : Intrinsic) (args : List Datum)
    (hargs : ∀ a ∈ args, I.Value w.environment.Knows a) :
    I.Runs I.Value w (f.run ev args w) := by
  have hitems {ds : List Datum} (h : I.Value w.environment.Knows (.list ds)) :
      ∀ d ∈ ds, I.Value w.environment.Knows d := (I.values _).list.1 h
  fun_induction Intrinsic.run ev f args with
  | case1 params variadic body args =>
    have hbody : I.Code body := I.body (hargs _ List.mem_cons_self)
    exact applyClosure hev hw hbody (hitems (hargs _ (by simp)))
  | case2 f args ih => exact ih (hitems (hargs _ (by simp)))
  | case3 => exact .fail hw (by rintro _ ⟨⟩)
  | case4 => exact .fail hw (by rintro _ ⟨⟩)
  | case5 => exact .fail hw (by rintro _ ⟨⟩)
  | case6 => exact .fail hw (by rintro _ ⟨⟩)
  | case7 o args =>
    have hrun := (I.values w.environment.Knows).operator o hargs
    exact .ofExcept (r := o.run args) hw (hrun.monoError fun _ => I.ordinary)
  | case8 => exact runEval hev hw _ hargs
  | case9 => exact runFormat hev hw _
  | case10 => exact runLoad hev hw _
  | case11 => exact runExit hw _
  | case12 | case13 => exact runPrint hw _ _
  | case14 => exact runReadLine hw _
  | case15 => exact runReadFile hw _
  | case16 => exact runWriteFile hw _

theorem call (hw : I.Sound w.environment) (head : Datum)
    (hhead : I.Value w.environment.Knows head) (exprs : List Datum)
    (hexprs : ∀ d ∈ exprs, I.Code d)
    (hdeclares : head = .special .defineStruct → ∀ type fields,
      SpecialForm.structDeclaration exprs = .ok (type, fields) →
        I.Declares w.environment type fields) :
    I.Runs I.Value w (DynamicLisp.call ev head exprs w) := by
  have hargs := evaluateAll hev hw exprs hexprs
  unfold DynamicLisp.call
  split
  · exact .bind hargs fun args w₁ _ hw₁ hvalues => applyClosure hev hw₁ (I.body hhead) hvalues
  · exact .bind hargs fun args w₁ _ hw₁ hvalues => intrinsic hev hw₁ _ args hvalues
  · rename_i f
    exact special hev hw f hhead exprs hexprs fun hf => hdeclares (congrArg _ hf)
  · exact .fail hw nofun

/-- One level of evaluation keeps the invariant if the levels below do. Only declarations of struct
types are left to be looked at. -/
theorem evaluateWith (hw : I.Sound w.environment) (d : Datum) (hd : I.Code d)
    (hdeclares : ∀ head exprs w₁ type fields, d = .list (head :: exprs) →
      ev head w = (.ok (.special .defineStruct), w₁) →
        SpecialForm.structDeclaration exprs = .ok (type, fields) →
          I.Declares w₁.environment type fields) :
    I.Runs I.Value w (evaluateWith ev d w) := by
  cases d with
  | symbol s =>
    have hresolve := (Checks.resolve w.environment s.name).mapError fun _ he => I.ordinary he.stop
    rw [evaluateWith_symbol]
    exact ⟨.refl _, hw, hresolve.mono fun _ => I.resolve hw⟩
  | list items =>
    cases items with
    | nil => exact .pure hw (I.values _).empty
    | cons head exprs =>
      obtain ⟨hhead, hexprs⟩ := List.forall_mem_cons.1 (I.items.1 hd)
      refine .bind_of (hev head w hhead hw) fun v w₁ hv _ hw₁ hvalue => ?_
      refine call hev hw₁ v hvalue exprs hexprs ?_
      rintro rfl type fields
      exact hdeclares head exprs w₁ type fields rfl hv
  | quote d => exact .pure hw (I.quoted hd)
  | nil => exact .pure hw (I.values _).empty
  | _ => exact .pure hw (I.literal hd nofun nofun nofun)

omit hev

/-- If any struct type may be declared, every evaluation keeps the invariant. -/
theorem evaluate (hdeclares : ∀ e type fields, I.Declares e type fields) (limit : Nat) :
    I.Keeps (evaluate limit) := by
  induction limit with
  | zero => exact fun d w _ hw => .stop hw (I.ordinary ⟨nofun, nofun⟩)
  | succ limit ih =>
    exact fun d w hd hw => evaluateWith ih hw d hd fun _ _ w₁ type fields _ _ _ =>
      hdeclares w₁.environment type fields

variable {watched : Datum → World → Bool}

/-- Forms that declare struct types are watched for, unless they may declare them. -/
def Admits (I : Invariant) (watched : Datum → World → Bool) : Prop :=
  ∀ limit head exprs w w₁ type fields, watched (.list (head :: exprs)) w = false →
    evaluateUntil watched limit head w = (.ok (.special .defineStruct), w₁) →
    SpecialForm.structDeclaration exprs = .ok (type, fields) → I.Declares w₁.environment type fields

/-- An evaluation keeps the invariant up to the first moment that is watched for. -/
theorem evaluateUntil (hadmits : I.Admits watched)
    (hwatched : ∀ d w, I.Code d → I.Sound w.environment → watched d w = true → I.Stops .noScope)
    (limit : Nat) : I.Keeps (evaluateUntil watched limit) := by
  induction limit with
  | zero => exact fun d w _ hw => .stop hw (I.ordinary ⟨nofun, nofun⟩)
  | succ limit ih =>
    intro d w hd hw
    cases h : watched d w with
    | true =>
      rw [evaluateUntil_of_watched h]
      exact .stop hw (hwatched d w hd hw h)
    | false =>
      rw [evaluateUntil_of_unwatched h]
      refine evaluateWith ih hw d hd ?_
      rintro head exprs w₁ type fields rfl hhead
      exact hadmits limit head exprs w w₁ type fields h hhead

variable {limit : Nat}

/-- Moments at which the invariant does not hold are not come to. -/
theorem not_encountersIn (hev : I.Keeps (DynamicLisp.evaluate limit))
    (huntil : I.Keeps (DynamicLisp.evaluateUntil watched limit)) (hscope : ¬ I.Stops .noScope)
    (hw : I.Sound w.environment) (ds : List Datum) (hds : ∀ d ∈ ds, I.Code d) :
    ¬ EncountersIn watched limit ds w := by
  induction ds generalizing w with
  | nil => exact id
  | cons d ds ih =>
    obtain ⟨hd, hds⟩ := List.forall_mem_cons.1 hds
    rintro (hbroken | ⟨v, w₁, hv, hrest⟩)
    · have hresult := (huntil d w hd hw).result
      rw [Encounters] at hbroken
      rw [hbroken] at hresult
      exact hscope hresult
    · have hsound := (hev d w hd hw).sound
      rw [hv] at hsound
      exact ih hsound hds hrest

theorem evalExprs (hev : I.Keeps (DynamicLisp.evaluate limit)) (hw : I.Sound w.environment)
    {result : Datum} (hresult : I.Value w.environment.Knows result) (ds : List Datum)
    (hds : ∀ d ∈ ds, I.Code d) : I.Runs I.Value w (Session.evalExprs limit result ds w) := by
  induction ds generalizing w result with
  | nil => exact .pure hw hresult
  | cons d ds ih =>
    obtain ⟨hd, hds⟩ := List.forall_mem_cons.1 hds
    exact .bind (hev d w hd hw) fun v w₁ _ hw₁ hv => ih hw₁ hv hds

theorem evalText (hev : I.Keeps (DynamicLisp.evaluate limit)) (hw : I.Sound w.environment)
    (text : String) : I.Runs I.Value w (Session.evalText limit text w) := by
  have hds : ∀ d ∈ (Script.ofText text).exprs, I.Code d := fun d hd => I.read hd
  refine .bind (evalExprs hev hw (I.values _).empty _ hds) fun v w₁ _ hw₁ hv => ?_
  cases (Script.ofText text).fault with
  | none => exact .pure hw₁ hv
  | some e => exact .fail hw₁ nofun

theorem load (hev : I.Keeps (DynamicLisp.evaluate limit)) (hw : I.Sound w.environment)
    (name : String) : I.Runs I.Value w (Session.load limit name w) :=
  .bind (resolveFile hw name) fun p _ _ hw₁ _ => importFile hev hw₁ p

theorem loadLibrary (hev : I.Keeps (DynamicLisp.evaluate limit)) (hw : I.Sound w.environment) :
    I.Runs (fun _ _ => True) w (Session.loadLibrary limit w) := by
  refine .bind (.host hw) fun h w₁ _ hw₁ _ => ?_
  refine .bind (.liftHost hw₁ _) fun found w₂ _ hw₂ _ => ?_
  cases found with
  | none => exact .pure hw₂ trivial
  | some p => exact .bind (importFile hev hw₂ p) fun _ _ _ hw₃ _ => .pure hw₃ trivial

/-- The invariant holds between the evaluations of a session if it holds at the start. -/
theorem reached (hev : ∀ limit, I.Keeps (DynamicLisp.evaluate limit))
    (hstandard : I.Sound standardEnvironment) (hw : Session.Reached w) : I.Sound w.environment := by
  induction hw with
  | start limit library host =>
    cases library with
    | false => exact hstandard
    | true => exact (loadLibrary (w := ⟨standardEnvironment, host⟩) (hev limit) hstandard).sound
  | text limit text _ ih => exact (evalText (hev limit) ih text).sound
  | load limit name _ ih => exact (load (hev limit) ih name).sound
  | @request w limit request _ ih =>
    by_cases hasks : ∃ code, Server.AsksFor request code
    · obtain ⟨code, hcode⟩ := hasks
      rw [Server.handle_of_asks hcode]
      exact (evalText (hev limit) ih code).sound
    · obtain ⟨message, h⟩ := Server.handle_of_not_asks (not_exists.1 hasks) limit w
      rw [h]
      exact ih
  | host _ _ ih => exact ih

end Invariant

end DynamicLisp
