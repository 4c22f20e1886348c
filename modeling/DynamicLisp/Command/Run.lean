import DynamicLisp.Command.Options
import DynamicLisp.Session.Loop

/-! The program behind the command line: it runs a source file, the loop, or both. -/
namespace DynamicLisp.Command

/-- How the program ends. -/
inductive Ending
  | returned (code : Int) (complaint : String)
  | exited (code : Int)
  | crashed (s : Stop)
deriving DecidableEq, Inhabited

/-- The code for arguments that cannot be taken. -/
def usageCode : Int := 2

def versionText : String := Settings.languageName ++ " " ++ Settings.languageVersion ++ "\n"

def Ending.ofStop : Stop → Ending
  | .exit code => exited code
  | .error e => returned 1 ("ERROR:\n" ++ e.message ++ "\n")
  | s => crashed s

def usageText : String :=
  "usage: " ++ Settings.languageName ++
    " [-h] [--version] [--lib LIB_LOC] [--interactive] [--log-level LEVEL] [INPUT]\n"

/-- Loads the library and runs the input file, unless its name is empty. -/
def prepare (limit : Nat) (o : Options) : Action Unit := do
  Session.loadLibrary limit
  match o.input with
  | none | some "" => return ()
  | some name =>
    let _ ← Session.load limit name
    return ()

/-- The roots that the options ask for; an empty one is no wish. -/
def rootsOf (o : Options) (roots : List Path) : List Path :=
  match o.library with
  | none | some "" => roots
  | setting => Settings.libraryRoots setting

/-- The loop runs if there is no input, or if it is asked for. -/
def wantsLoop (o : Options) : Bool := o.input.isNone || o.interactive

/-- Everything that the options ask for, with the loop on standard input to its end. -/
def runOptions (limit : Nat) (user : String) (o : Options) : Action Unit := do
  prepare limit o
  if wantsLoop o then
    Loop.runConsole limit (Loop.prompt user) ((← Action.host).input.length + 1)

/-- The world in which the program starts. -/
def startWorld (o : Options) (host : Host) : World :=
  ⟨standardEnvironment, { host with roots := rootsOf o host.roots }⟩

/-- Runs the program with its arguments. -/
def run (limit : Nat) (user : String) (args : List String) (host : Host) : Ending × Host :=
  match parse args with
  | .rejected => (.exited usageCode, host)
  | .version => (.exited 0, host.print versionText)
  | .help => (.exited 0, host.print usageText)
  | .run o =>
    match runOptions limit user o (startWorld o host) with
    | (.ok (), w) => (.returned 0 "", w.host)
    | (.error s, w) => (.ofStop s, w.host)

end DynamicLisp.Command
