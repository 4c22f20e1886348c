import DynamicLisp.Proofs.Evaluation.Raising
import DynamicLisp.Server.Basic

/-! What a request leaves of the session that all requests share, and when it gets a reply
(`handle_session`). -/
namespace DynamicLisp

variable {w : World}

/-- The worlds of a session between two evaluations. Files, input and output may change meanwhile. -/
inductive Session.Reached : World → Prop
  | start (limit : Nat) (library : Bool) (host : Host) : Reached (Session.start limit library host).2
  | text {w : World} (limit : Nat) (text : String) : Reached w → Reached (evalText limit text w).2
  | load {w : World} (limit : Nat) (name : String) : Reached w → Reached (load limit name w).2
  | request {w : World} (limit : Nat) (request : Table String Json) :
      Reached w → Reached (Server.handle limit request w).2
  | host {w : World} (host : Host) : Reached w → Reached { w with host := host }

namespace Server

/-- The request asks for the code to be evaluated. Without code there is nothing to evaluate. -/
def AsksFor (request : Table String Json) (code : String) : Prop :=
  request.find? "cmd" = some (.string "eval") ∧
    (request.find? "code" = some (.string code) ∨ request.find? "code" = none ∧ code = "")

variable {request : Table String Json} {code : String}

theorem handle_of_asks (h : AsksFor request code) (limit : Nat) :
    handle limit request = evalCode limit code := by
  obtain ⟨hcmd, hcode | ⟨hcode, rfl⟩⟩ := h
  · simp only [handle, hcmd, hcode]
  · simp only [handle, hcmd, hcode]

/-- Any other request is rejected, and nothing changes. -/
theorem handle_of_not_asks (h : ∀ code, ¬ AsksFor request code) (limit : Nat) (w : World) :
    ∃ message, handle limit request w = (.ok (.failure message), w) := by
  unfold handle
  generalize hcmd : request.find? "cmd" = cmd
  generalize hcode : request.find? "code" = value
  split
  · split
    · exact (h "" ⟨hcmd, .inr ⟨hcode, rfl⟩⟩).elim
    · exact (h _ ⟨hcmd, .inl hcode⟩).elim
    · exact ⟨_, rfl⟩
  · exact ⟨_, rfl⟩

/-- The session after an evaluation that a client asked for: its scopes are balanced, and there is a
reply unless the evaluation runs away or raises what nobody answers for. -/
theorem evalCode_frame (limit : Nat) (code : String) (w : World) :
    w.environment.Framed (evalCode limit code w).2.environment ∧
      ((∃ reply, (evalCode limit code w).1 = .ok reply) ∨
        (evalCode limit code w).1 = .error .runaway ∨
        ∃ s : Stop, s.Raised ∧ (evalCode limit code w).1 = .error s ∧
          (Session.evalText limit code w).1 = .error s) := by
  obtain ⟨hframed, hbase⟩ := Action.frames_compositional.evalText limit code w
  refine ⟨hframed, ?_⟩
  have hreply : (evalCode limit code w).1 = Reply.ofResult (Session.evalText limit code w).1 := rfl
  rw [hreply]
  cases h : (Session.evalText limit code w).1 with
  | ok d => exact .inl ⟨_, rfl⟩
  | error s =>
    cases s with
    | error e => exact .inl ⟨_, rfl⟩
    | exit c => exact .inl ⟨_, rfl⟩
    | noScope => exact (hbase h).elim
    | overflow | endless | fault f =>
      refine .inr (.inr ⟨_, ?_, rfl, rfl⟩)
      trivial
    | runaway => exact .inr (.inl rfl)

theorem handle_frame (limit : Nat) (request : Table String Json) (w : World) :
    w.environment.Framed (handle limit request w).2.environment := by
  by_cases hasks : ∃ code, AsksFor request code
  · obtain ⟨code, hcode⟩ := hasks
    rw [handle_of_asks hcode]
    exact (evalCode_frame limit code w).1
  · obtain ⟨message, h⟩ := handle_of_not_asks (not_exists.1 hasks) limit w
    rw [h]
    exact .refl _

end Server

/-- Between two evaluations there is no scope but the base. -/
theorem Session.Reached.depth_eq_zero (hw : Session.Reached w) : w.environment.depth = 0 := by
  have hstandard : standardEnvironment.depth = 0 := Environment.depth_modifyInnermost _ _
  induction hw with
  | start limit library host =>
    cases library with
    | false => exact hstandard
    | true =>
      have hframed := (Action.frames_compositional.loadLibrary limit ⟨standardEnvironment, host⟩).1
      exact hframed.depth_eq.trans hstandard
  | @text w limit text _ ih =>
    exact (Action.frames_compositional.evalText limit text w).1.depth_eq.trans ih
  | @load w limit name _ ih =>
    exact (Action.frames_compositional.load limit name w).1.depth_eq.trans ih
  | @request w limit request _ ih => exact (Server.handle_frame limit request w).depth_eq.trans ih
  | host _ _ ih => exact ih

theorem Environment.innermost_of_depth {e : Environment} (h : e.depth = 0) : e.innermost = e.base := by
  have hinner : e.inner = [] := List.length_eq_zero_iff.1 h
  rw [innermost, hinner]
  rfl

namespace Server

open Classical in
/-- Whatever a client sends: afterwards the session is back in its base scope, where no name is
unbound, and has lost no struct type. A request that asks for no evaluation is rejected and changes
nothing. There is a reply unless the evaluation runs away, or comes to a call of an intrinsic that
raises what leaves the server: the overflow of a Fibonacci number, a comparison that comes back to
itself, or what the host raises for a path or a file. -/
theorem handle_session (hw : Session.Reached w) (limit : Nat) (request : Table String Json) :
    ∃ r w', handle limit request w = (r, w') ∧ w'.environment.depth = 0 ∧
      (∀ x, (w.environment.base.find? x).isSome → (w'.environment.base.find? x).isSome) ∧
      (∀ t, (w.environment.fields? t).isSome → (w'.environment.fields? t).isSome) ∧
      ((∀ code, ¬ AsksFor request code) → w' = w ∧ ∃ message, r = .ok (.failure message)) ∧
      ((∃ reply, r = .ok reply) ∨ r = .error .runaway ∨
        ∃ s code, r = .error s ∧ AsksFor request code ∧
          EncountersIn (fun d w => decide (CallsRaising s d w)) limit
            (Script.ofText code).exprs w) := by
  have hframed := handle_frame limit request w
  have hdepth := hframed.depth_eq.trans hw.depth_eq_zero
  refine ⟨(handle limit request w).1, (handle limit request w).2, rfl, hdepth, fun x hx => ?_,
    hframed.types, fun hnone => ?_, ?_⟩
  · rw [← Environment.innermost_of_depth hdepth]
    rw [← Environment.innermost_of_depth hw.depth_eq_zero] at hx
    exact hframed.names x hx
  · obtain ⟨message, h⟩ := handle_of_not_asks hnone limit w
    rw [h]
    exact ⟨rfl, message, rfl⟩
  · by_cases hasks : ∃ code, AsksFor request code
    · obtain ⟨code, hcode⟩ := hasks
      rw [handle_of_asks hcode]
      rcases (evalCode_frame limit code w).2 with hreply | hrunaway | ⟨s, hs, hraised, htext⟩
      · exact .inl hreply
      · exact .inr (.inl hrunaway)
      · exact .inr (.inr ⟨s, code, hraised, hcode, encountersIn_of_text_raised hs htext⟩)
    · obtain ⟨message, h⟩ := handle_of_not_asks (not_exists.1 hasks) limit w
      rw [h]
      exact .inl ⟨_, rfl⟩

/-- A request for the value of an unbound name gets the error as its reply. -/
theorem handle_session_unbound :
    let w := (Session.start 9 false default).2
    let request : Table String Json := ⟨[("cmd", .string "eval"), ("code", .string "(if #t x y)")]⟩
    Session.Reached w ∧ (handle 9 request w).2.environment.depth = 0 ∧
      (handle 9 request w).1 = .ok (.failure "Variable x is unbound.") := by
  intro w request
  have hw : Session.Reached w := .start 9 false default
  have hreply : (handle 9 request w).1 = .ok (.failure "Variable x is unbound.") := by
    decide +kernel
  obtain ⟨r, w', h, hdepth, _⟩ := handle_session hw 9 request
  rw [h] at hreply ⊢
  exact ⟨hw, hdepth, hreply⟩

/-- The overflow of a number is no failure that the server answers. -/
theorem fibonacci_unanswered :
    let w := (Session.start 9 false default).2
    let request : Table String Json :=
      ⟨[("cmd", .string "eval"), ("code", .string "(fibonacci 2000)")]⟩
    Session.Reached w ∧ (handle 9 request w).1 = .error .overflow :=
  ⟨.start 9 false default, by decide +kernel⟩

-- Nor is a path that the host refuses.
example :
    let w := (Session.start 9 false default).2
    let request : Table String Json :=
      ⟨[("cmd", .string "eval"), ("code", .string "(read-file \"\x00\")")]⟩
    (handle 9 request w).1 = .error (.fault .nulInPath) := by decide +kernel

end Server

end DynamicLisp
