import DynamicLisp.Proofs.Server.Requests

/-! What the operations of a session evaluate. Each of them leaves the world behind that evaluating its
expressions one after the other leaves (`Session.Step.eq`). -/
namespace DynamicLisp

/-- The expressions of a file, and none if there is no file or it cannot be read to its end. -/
def Host.expressions (h : Host) (file : Option Path) : List Datum :=
  match file.map h.files.read with
  | some (.ok text) => ((readChars text).toOption).getD []
  | _ => []

/-- The entry point of the first library root that has one. -/
def Host.entryPoint? (h : Host) : Except HostFault (Option Path) :=
  h.files.firstFile? (h.roots.map (·.join (Path.ofText Settings.entryPoint)))

/-- An operation of a session, with the expressions that it evaluates and the worlds before and after
it. -/
inductive Session.Step (limit : Nat) : List Datum → World → World → Prop
  | library (host : Host) :
    Step limit (host.expressions host.entryPoint?.toOption.join) (Session.start limit false host).2
      (Session.start limit true host).2
  | text (text : String) (w : World) :
    Step limit (Script.ofText text).exprs w (evalText limit text w).2
  | load (name : String) (w : World) :
    Step limit (w.host.expressions (w.host.resolve? name).toOption.join) w (load limit name w).2
  | request {request : Table String Json} {code : String} (w : World) :
    Server.AsksFor request code →
      Step limit (Script.ofText code).exprs w (Server.handle limit request w).2

namespace Action

variable {α β : Type}

/-- What comes after an action does not matter to the world if it leaves the world alone. -/
theorem bind_snd (x : Action α) (f : α → Action β) (hf : ∀ a w, (f a w).2 = w) (w : World) :
    ((x >>= f) w).2 = (x w).2 := by
  rcases bind_cases x f w with ⟨s, w', hx, h⟩ | ⟨a, w', hx, h⟩
  · rw [h, hx]
  · rw [h, hx, hf]

end Action

namespace Session

variable {limit : Nat} {ds : List Datum} {w w' : World}

theorem evalExprs_snd (result : Datum) :
    (evalExprs limit result ds w).2 = (evaluateEach (evaluate limit) ds w).2 := by
  induction ds generalizing w result with
  | nil => rfl
  | cons d ds ih =>
    rw [evalExprs, evaluateEach, Action.bind_apply, Action.bind_apply]
    obtain ⟨s | v, w₁⟩ := evaluate limit d w
    · rfl
    · exact ih v

theorem evalText_snd (text : String) : (evalText limit text w).2 =
    (evaluateEach (evaluate limit) (Script.ofText text).exprs w).2 := by
  refine (Action.bind_snd _ _ (fun v w => ?_) w).trans (evalExprs_snd .empty)
  cases (Script.ofText text).fault <;> rfl

theorem importFile_snd (p : Path) : (importFile (evaluate limit) p w).2 =
    (evaluateEach (evaluate limit) (w.host.expressions (some p)) w).2 := by
  rw [Host.expressions, Option.map_some, importFile_apply]
  cases w.host.files.read p with
  | error e => rfl
  | ok text =>
    dsimp only
    rw [readSource]
    cases readChars text with
    | error e => rfl
    | ok exprs =>
      exact Action.bind_snd (evaluateEach _ exprs) (fun _ => return Datum.empty) (fun _ _ => rfl) w

theorem load_snd (name : String) : (load limit name w).2 =
    (evaluateEach (evaluate limit)
      (w.host.expressions (w.host.resolve? name).toOption.join) w).2 := by
  rw [load, Action.bind_apply, resolveFile_apply]
  rcases w.host.resolve? name with f | _ | p
  · rfl
  · rfl
  · exact importFile_snd p

theorem loadLibrary_snd : (loadLibrary limit w).2 =
    (evaluateEach (evaluate limit) (w.host.expressions w.host.entryPoint?.toOption.join) w).2 := by
  unfold loadLibrary
  rw [Action.bind_apply, Action.host]
  dsimp only
  rw [← Host.entryPoint?]
  rcases w.host.entryPoint? with f | _ | p
  · rfl
  · rfl
  · change ((importFile (evaluate limit) p >>= fun _ => return ()) w).2 = _
    exact (Action.bind_snd _ _ (fun _ _ => rfl) w).trans (importFile_snd p)

theorem Step.eq (h : Step limit ds w w') : w' = (evaluateEach (evaluate limit) ds w).2 := by
  cases h with
  | library host => exact loadLibrary_snd
  | text text => exact evalText_snd text
  | load name => exact load_snd name
  | request _ hasks =>
    rw [Server.handle_of_asks hasks]
    exact evalText_snd _

/-- A moment that is not come to makes no difference to the evaluation. -/
theorem evaluateEach_until {watched : Datum → World → Bool} (h : ¬ EncountersIn watched limit ds w) :
    evaluateEach (evaluateUntil watched limit) ds w = evaluateEach (evaluate limit) ds w := by
  induction ds generalizing w with
  | nil => rfl
  | cons d ds ih =>
    rw [EncountersIn, not_or, not_exists] at h
    rw [evaluateEach, evaluateEach, Action.bind_apply, Action.bind_apply, evaluateUntil_eq h.1]
    cases hd : evaluate limit d w with
    | mk r w₁ =>
      cases r with
      | error s => rfl
      | ok v => exact ih fun hrest => h.2 v ⟨w₁, hd, hrest⟩

end Session

end DynamicLisp
