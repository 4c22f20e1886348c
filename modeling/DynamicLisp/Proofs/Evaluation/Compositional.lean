import DynamicLisp.Proofs.Evaluation.Relational
import DynamicLisp.Session.Basic

/-! Properties of actions that the building blocks of the evaluator have and that sequencing and
scopes keep. Every evaluation has each of them (`Compositional.evaluate`). -/
namespace DynamicLisp.Action

/-- A property that holds of the elementary actions of a program, of its failures and of its exits, and
is kept when actions are put together. -/
structure Elementary (K : (α : Type) → Action α → Prop) : Prop where
  pure {α : Type} (a : α) : K α (Pure.pure a)
  bind {α β : Type} {x : Action α} {f : α → Action β} :
    K α x → (∀ a, K β (f a)) → K β (x >>= f)
  fail {α : Type} (e : LispError) : K α (Action.fail e)
  exit {α : Type} (code : Int) : K α (Action.stop (.exit code))
  environment : K _ Action.environment
  host : K _ Action.host
  modifyHost (f : Host → Host) : K _ (Action.modifyHost f)
  update (bindings : List (String × Datum)) : K _ (modifyEnvironment (·.update bindings))
  declare (type : String) (fields : List String) (bindings : List (String × Datum)) :
    K _ (modifyEnvironment fun e => (e.addStruct type fields).update bindings)
  inScope {α : Type} {x : Action α} : K α x → K α (Action.inScope x)

variable {K : (α : Type) → Action α → Prop}

/-- A property is a relation between equal actions. -/
theorem Elementary.relational (hK : Elementary K) :
    Relational (· = ·) fun α x y => x = y ∧ K α x where
  pure a := ⟨rfl, hK.pure a⟩
  bind := by
    rintro α β x _ f g ⟨rfl, hx⟩ hf
    obtain rfl : f = g := funext fun a => (hf a).1
    exact ⟨rfl, hK.bind hx fun a => (hf a).2⟩
  fail e := ⟨rfl, hK.fail e⟩
  exit code := ⟨rfl, hK.exit code⟩
  registeredFields type := by
    refine ⟨rfl, hK.bind hK.environment fun e => ?_⟩
    split
    · exact hK.pure _
    · exact hK.fail _
  host := by
    intro α f g hf
    obtain rfl : f = g := funext fun h => (hf h h (.of_eq rfl)).1
    exact ⟨rfl, hK.bind hK.host fun h => (hf h h (.of_eq rfl)).2⟩
  modifyHost := by
    intro f g hf
    obtain rfl : f = g := funext fun h => (hf h h (.of_eq rfl)).eq
    exact ⟨rfl, hK.modifyHost f⟩
  update bindings := ⟨rfl, hK.update bindings⟩
  declare type fields bindings := ⟨rfl, hK.declare type fields bindings⟩
  inScope := by
    rintro α x _ ⟨rfl, hx⟩
    exact ⟨rfl, hK.inScope hx⟩
  print := .eq

theorem Elementary.symbol (hK : Elementary K) (ev : Evaluator) (s : Symbol) :
    K _ (evaluateWith ev (.symbol s)) :=
  hK.bind hK.environment fun e => (hK.relational.lift (e.resolve s.name)).2

/-- What one level of evaluation makes of anything but a form is put together from elementary actions. -/
theorem Elementary.evaluateWith (hK : Elementary K) {ev : Evaluator} (d : Datum)
    (hform : ∀ head exprs, d = .list (head :: exprs) → K _ (evaluateWith ev d)) :
    K _ (evaluateWith ev d) := by
  have hlevel : DynamicLisp.evaluateWith ev d = DynamicLisp.evaluateWith ev d ∧
      K _ (DynamicLisp.evaluateWith ev d) := by
    apply hK.relational.evaluateWith d
    · rintro s rfl
      exact ⟨rfl, hK.symbol ev s⟩
    · exact fun head exprs hd => ⟨rfl, hform head exprs hd⟩
  exact hlevel.2

/-- A property that holds of the elementary actions of a program and of every way to stop that they
have, and is kept when actions are put together. The base scope is never left by an elementary
action. -/
structure Compositional (K : (α : Type) → Action α → Prop) : Prop where
  pure {α : Type} (a : α) : K α (Pure.pure a)
  bind {α β : Type} {x : Action α} {f : α → Action β} :
    K α x → (∀ a, K β (f a)) → K β (x >>= f)
  stop {α : Type} {s : Stop} : s ≠ .noScope → K α (Action.stop s)
  environment : K _ Action.environment
  host : K _ Action.host
  modifyHost (f : Host → Host) : K _ (Action.modifyHost f)
  update (bindings : List (String × Datum)) : K _ (modifyEnvironment (·.update bindings))
  declare (type : String) (fields : List String) (bindings : List (String × Datum)) :
    K _ (modifyEnvironment fun e => (e.addStruct type fields).update bindings)
  inScope {α : Type} {x : Action α} : K α x → K α (Action.inScope x)

namespace Compositional

variable (hK : Compositional K)
include hK

theorem elementary : Elementary K :=
  { hK with fail := fun _ => hK.stop nofun, exit := fun _ => hK.stop nofun }

theorem relational : Relational (· = ·) fun α x y => x = y ∧ K α x := hK.elementary.relational

theorem fault {α : Type} (f : HostFault) :
    (Action.stop (.fault f) : Action α) = Action.stop (.fault f) ∧ K α (Action.stop (.fault f)) :=
  ⟨rfl, hK.stop nofun⟩

theorem operator (o : Operator) (args : List Datum) : K _ (Action.ofExcept (o.run args)) := by
  cases h : o.run args with
  | ok d => exact hK.pure d
  | error s =>
    refine hK.stop ?_
    rintro rfl
    obtain ⟨_, hs⟩ | ⟨hs, _⟩ | ⟨hs, _⟩ := Operator.run_stops h <;> cases hs

theorem evaluateWith {ev : Evaluator} (hev : ∀ d, K _ (ev d)) (d : Datum) :
    K _ (evaluateWith ev d) := by
  have hboth (d : Datum) : ev d = ev d ∧ K _ (ev d) := ⟨rfl, hev d⟩
  refine hK.elementary.evaluateWith d ?_
  rintro head exprs rfl
  have hoperator (o : Operator) (args : List Datum) :
      Action.ofExcept (o.run args) = Action.ofExcept (o.run args) ∧
        K _ (Action.ofExcept (o.run args)) := ⟨rfl, hK.operator o args⟩
  exact (hK.relational.form hboth hK.fault hoperator head exprs).2

/-- Every evaluation has a compositional property. -/
theorem evaluate (limit : Nat) (d : Datum) : K _ (evaluate limit d) := by
  induction limit generalizing d with
  | zero => exact hK.stop nofun
  | succ limit ih => exact hK.evaluateWith ih d

theorem importFile (limit : Nat) (p : Path) : K _ (importFile (DynamicLisp.evaluate limit) p) :=
  (hK.relational.importFile (fun d => ⟨rfl, hK.evaluate limit d⟩) hK.fault p).2

theorem loadLibrary (limit : Nat) : K _ (Session.loadLibrary limit) := by
  refine hK.bind hK.host fun h => ?_
  refine hK.bind (hK.relational.liftHost hK.fault _).2 fun found => ?_
  split
  · exact hK.pure _
  · exact hK.bind (hK.importFile limit _) fun _ => hK.pure _

theorem load (limit : Nat) (name : String) : K _ (Session.load limit name) :=
  hK.bind (hK.relational.resolveFile hK.fault name).2 fun p => hK.importFile limit p

theorem evalExprs (limit : Nat) (d : Datum) (ds : List Datum) :
    K _ (Session.evalExprs limit d ds) := by
  induction ds generalizing d with
  | nil => exact hK.pure d
  | cons e ds ih => exact hK.bind (hK.evaluate limit e) ih

/-- So has the evaluation of a text in a session. -/
theorem evalText (limit : Nat) (text : String) : K _ (Session.evalText limit text) := by
  refine hK.bind (hK.evalExprs limit _ _) fun d => ?_
  split
  · exact hK.pure d
  · exact hK.elementary.fail _

end Compositional

end DynamicLisp.Action
