import DynamicLisp.Session.Basic

/-! The loop that reads lines, evaluates them and echoes the results. -/
namespace DynamicLisp.Loop

/-- What is written for the result of a line: nothing for the empty list. -/
def echo : Except LispError Datum → String
  | .ok (.list []) => ""
  | .ok d => d.display ++ "\n"
  | .error e => "ERROR: " ++ e.message ++ "\n"

/-- Evaluates a line and gives what is written for it. -/
def evalLine (limit : Nat) (line : String) : Action String := do
  return echo (← Action.catchError (Session.evalText limit line))

/-- What comes from the keyboard. -/
inductive Item
  | line (text : String)
  | interrupt
deriving DecidableEq, Inhabited

def isBlankLine (line : String) : Bool := (Text.trim line.toList).isEmpty

/-- What is written for an item. -/
def step (limit : Nat) : Item → Action String
  | .interrupt => return "\n"
  | .line text => if isBlankLine text then return "" else evalLine limit text

/-- What a run of the loop has shown so far. -/
structure Transcript where
  echo : String
  prompts : Nat
deriving DecidableEq, Inhabited

/-- Runs the loop to the end of its items, or to the first one that stops the program. -/
def run (limit : Nat) : List Item → World → Transcript × Except Stop Unit × World
  | [], w => (⟨"\n", 1⟩, .ok (), w)
  | item :: items, w =>
    match step limit item w with
    | (.error s, w) => (⟨"", 1⟩, .error s, w)
    | (.ok text, w) =>
      let (t, r, w) := run limit items w
      (⟨text ++ t.echo, t.prompts + 1⟩, r, w)

/-- What the loop asks with. -/
def prompt (user : String) : String := (if user = "" then "user" else user) ++ "> "

/-- Runs the loop on standard input and output, for at most so many lines. -/
def runConsole (limit : Nat) (prompt : String) : Nat → Action Unit
  | 0 => return ()
  | lines + 1 => do
    Action.modifyHost (·.print prompt)
    match (← Action.host).readLine? with
    | none => Action.modifyHost (·.print "\n")
    | some (line, host) =>
      Action.modifyHost fun _ => host
      let text ← step limit (.line line)
      Action.modifyHost (·.print text)
      runConsole limit prompt lines

end DynamicLisp.Loop
