import DynamicLisp.Proofs.Evaluation.Relational
import DynamicLisp.Server.Basic
import DynamicLisp.Session.Loop

/-! The loop and the server. Both run the same session: a run of the loop shows what the replies to
its lines say, and leaves the world that they leave (`run_requests`). -/
namespace DynamicLisp

/-- The request for the evaluation of a text. -/
def Server.evalRequest (code : String) : Table String Json :=
  ⟨[("cmd", .string "eval"), ("code", .string code)]⟩

/-- A result to go on with: a value or a failure of the program. -/
def Stop.settled {α : Type} : Except Stop α → Bool
  | .ok _ | .error (.error _) => true
  | .error _ => false

/-- Texts, evaluated one after the other whatever their results, neither exit nor stop otherwise. -/
def Session.settles (limit : Nat) : List String → World → Bool
  | [], _ => true
  | text :: texts, w =>
    let (r, w) := evalText limit text w
    Stop.settled r && settles limit texts w

namespace Loop

open Server (evalRequest handle)

/-- The line that an item gives to evaluate. -/
def Item.code? : Item → Option String
  | .interrupt => none
  | .line text => if isBlankLine text then none else some text

/-- What is written for an item, with the worlds before and after it. For a line that is not blank
it follows from the reply to its request, except that nothing is written for the empty list. -/
inductive Shown (limit : Nat) : Item → World → String → World → Prop
  | interrupt (w : World) : Shown limit .interrupt w "\n" w
  | blank {line : String} (w : World) :
    isBlankLine line = true → Shown limit (.line line) w "" w
  | failure {line message : String} {w w' : World} : isBlankLine line = false →
    handle limit (evalRequest line) w = (.ok (.failure message), w') →
    Shown limit (.line line) w ("ERROR: " ++ message ++ "\n") w'
  | empty {line : String} {reply : Reply} {w w' : World} : isBlankLine line = false →
    Session.evalText limit line w = (.ok .empty, w') →
    handle limit (evalRequest line) w = (.ok reply, w') →
    Shown limit (.line line) w "" w'
  | result {line text : String} {d : Datum} {w w' : World} : isBlankLine line = false →
    Session.evalText limit line w = (.ok d, w') → d ≠ .empty →
    handle limit (evalRequest line) w = (.ok (.result text), w') →
    Shown limit (.line line) w (text ++ "\n") w'

/-- What is written for items, each in the world that those before it leave. -/
inductive Echoes (limit : Nat) : List Item → World → List String → World → Prop
  | nil (w : World) : Echoes limit [] w [] w
  | cons {item : Item} {items : List Item} {w w₁ w' : World} {echo : String}
    {echoes : List String} : Shown limit item w echo w₁ → Echoes limit items w₁ echoes w' →
    Echoes limit (item :: items) w (echo :: echoes) w'

variable {limit : Nat} {line : String} {d : Datum} {w w' : World}

theorem echo_value (h : d ≠ .empty) : echo (.ok d) = d.display ++ "\n" := by
  cases d with
  | list items =>
    cases items with
    | nil => exact (h rfl).elim
    | cons d ds => rfl
  | _ => rfl

/-- What the loop writes for a line and what the server replies come from one evaluation. -/
theorem step_line {r : Except Stop Datum} (hline : isBlankLine line = false)
    (heval : Session.evalText limit line w = (r, w')) (hr : Stop.settled r = true) :
    ∃ echo reply, step limit (.line line) w = (.ok echo, w') ∧
      handle limit (evalRequest line) w = (.ok reply, w') ∧
      Shown limit (.line line) w echo w' := by
  have hstep : step limit (.line line) w = evalLine limit line w := by simp [step, hline]
  have hhandle : handle limit (evalRequest line) w = (Reply.ofResult r, w') := by
    change Server.evalCode limit line w = _
    rw [Server.evalCode, heval]
  rw [hstep, evalLine, Action.bind_apply, Action.catchError, heval]
  cases r with
  | ok d =>
    refine ⟨echo (.ok d), _, rfl, hhandle, ?_⟩
    by_cases hd : d = .empty
    · subst hd
      exact .empty hline heval hhandle
    · rw [echo_value hd]
      exact .result hline heval hd hhandle
  | error s =>
    cases s with
    | error e => exact ⟨echo (.error e), _, rfl, hhandle, .failure hline hhandle⟩
    | _ => nomatch hr

/-- The loop and the server run the same session. Unless a line exits or its evaluation is stopped
otherwise, the loop prompts once for each item and once for the end of its input, leaves the world
that the requests for its lines leave, and writes what the replies to them say. -/
theorem run_requests (limit : Nat) (items : List Item) (w : World)
    (h : Session.settles limit (items.filterMap Item.code?) w = true) :
    ∃ echoes replies w',
      run limit items w = (⟨String.join echoes ++ "\n", items.length + 1⟩, .ok (), w') ∧
      (items.filterMap Item.code?).mapM (fun code => handle limit (evalRequest code)) w =
        (.ok replies, w') ∧
      Echoes limit items w echoes w' := by
  induction items generalizing w with
  | nil => exact ⟨[], [], w, rfl, rfl, .nil w⟩
  | cons item items ih =>
    cases item with
    | interrupt =>
      obtain ⟨echoes, replies, w', hrun, hreplies, hechoes⟩ := ih w h
      refine ⟨"\n" :: echoes, replies, w', ?_, hreplies, .cons (.interrupt w) hechoes⟩
      simp [run, step, Action.pure_apply, hrun, String.append_assoc]
    | line line =>
      cases hline : isBlankLine line with
      | true =>
        have hcode : Item.code? (.line line) = none := by simp [Item.code?, hline]
        rw [List.filterMap_cons_none hcode] at h ⊢
        obtain ⟨echoes, replies, w', hrun, hreplies, hechoes⟩ := ih w h
        refine ⟨"" :: echoes, replies, w', ?_, hreplies, .cons (.blank w hline) hechoes⟩
        simp [run, step, hline, Action.pure_apply, hrun]
      | false =>
        have hcode : Item.code? (.line line) = some line := by simp [Item.code?, hline]
        rw [List.filterMap_cons_some hcode] at h ⊢
        obtain ⟨r, w₁, heval⟩ : ∃ r w₁, Session.evalText limit line w = (r, w₁) := ⟨_, _, rfl⟩
        rw [Session.settles, heval] at h
        obtain ⟨hsettled, hrest⟩ := Bool.and_eq_true_iff.1 h
        obtain ⟨echo, reply, hstep, hreply, hshown⟩ := step_line hline heval hsettled
        obtain ⟨echoes, replies, w', hrun, hreplies, hechoes⟩ := ih w₁ hrest
        refine ⟨echo :: echoes, reply :: replies, w', ?_, ?_, .cons hshown hechoes⟩
        · simp [run, hstep, hrun, String.append_assoc]
        · rw [List.mapM_cons, Action.bind_eq_ok]
          refine ⟨reply, w₁, hreply, ?_⟩
          rw [Action.bind_eq_ok]
          exact ⟨replies, w', hreplies, rfl⟩

/-- A definition, an interrupt, a blank line, a failure and a value in one run. -/
theorem run_requests_mixed :
    let items : List Item := [.line "(define x 5)", .interrupt, .line " ", .line "(car x)", .line "x"]
    let codes := ["(define x 5)", "(car x)", "x"]
    let w := (Session.start 9 false default).2
    Session.settles 9 codes w = true ∧ ∃ w',
      run 9 items w = (⟨"\nERROR: 5 is not a list.\n5\n\n", 6⟩, .ok (), w') ∧
      codes.mapM (fun code => handle 9 (evalRequest code)) w =
        (.ok [.result "()", .failure "5 is not a list.", .result "5"], w') := by
  intro items codes w
  have hsettles : Session.settles 9 codes w = true := by decide +kernel
  have hshown : (run 9 items w).1 = ⟨"\nERROR: 5 is not a list.\n5\n\n", 6⟩ := by decide +kernel
  have hreplied : (codes.mapM (fun code => handle 9 (evalRequest code)) w).1 =
      .ok [.result "()", .failure "5 is not a list.", .result "5"] := by decide +kernel
  obtain ⟨echoes, replies, w', hrun, hreplies, _⟩ := run_requests 9 items w hsettles
  have hend : (run 9 items w).2 = (.ok (), w') := congrArg Prod.snd hrun
  have hleft : (codes.mapM (fun code => handle 9 (evalRequest code)) w).2 = w' :=
    congrArg Prod.snd hreplies
  exact ⟨hsettles, w', Prod.ext hshown hend, Prod.ext hreplied hleft⟩

end Loop

end DynamicLisp
