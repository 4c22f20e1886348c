import DynamicLisp.Command.Run

/-! The program as a command, with the files of the disk and the input of the terminal. -/
namespace DynamicLisp.Main

def pathOf (l : Location) : String := "/" ++ "/".intercalate l.reverse

def locationOf (path : String) : Location := (Path.ofText path).parts.reverse

/-- A file of the disk. -/
def readNode (path : String) : IO Node := do
  let bytes ← IO.FS.readBinFile path
  return (String.fromUTF8? bytes).elim .binary .file

/-- Adds the files under a directory, down to a depth. -/
def capture : Nat → Location → FileSystem → IO FileSystem
  | 0, _, fs => return fs
  | depth + 1, l, fs => do
    let directory ← IO.FS.realPath (pathOf l)
    let mut fs := fs.addDirectory l
    for entry in ← directory.readDir do
      let inner := entry.fileName :: l
      if ← entry.path.isDir then
        fs ← capture depth inner fs
      else
        try fs := fs.addNode inner (← readNode entry.path.toString)
        catch _ => pure ()
    return fs

/-- How deep directories are looked into. -/
def captureDepth : Nat := 8

def captureAt (fs : FileSystem) (path : String) : IO FileSystem := do
  try capture captureDepth (locationOf (← IO.FS.realPath path).toString) fs
  catch _ => return fs

/-- Writes the files that are not as they were. -/
def save (before after : FileSystem) : IO Unit := do
  for (l, node) in after.nodes.entries do
    if let .file content := node then
      if before.node? l != some node then IO.FS.writeFile (pathOf l) content

/-- Runs an action with the lines that have been typed. One more line than these is laid ready; if
that one is taken, the action is run again when the next line has been typed. -/
partial def feed (action : Action Unit) (w : World) (typed : List Char) :
    IO (Except Stop Unit × World) := do
  let offer (input : List Char) : World := { w with host := { w.host with input := input } }
  let (r, w') := action (offer (typed ++ ['\n']))
  if w'.host.input.isEmpty then
    let line ← (← IO.getStdin).getLine
    if line.isEmpty then return action (offer typed) else feed action w (typed ++ line.toList)
  else return (r, w')

/-- Runs an action and lets its effects happen. -/
def perform (action : Action Unit) (w : World) : IO (Except Stop Unit × World) := do
  let (r, w') ← feed action { w with host := { w.host with output := "" } } []
  let stdout ← IO.getStdout
  stdout.putStr w'.host.output
  stdout.flush
  save w.host.files w'.host.files
  return (r, w')

def finish (e : Command.Ending) : IO UInt32 := do
  match e with
  | .exited code => return UInt32.ofNat (code % 0x100000000).toNat
  | .returned code complaint =>
    IO.eprint complaint
    return UInt32.ofNat (code % 0x100000000).toNat
  | .crashed s =>
    match s with
    | .overflow => IO.eprintln "A whole number is too large."
    | .endless => IO.eprintln "A comparison has no end."
    | .fault f => IO.eprintln f.reason
    | _ => IO.eprintln "The evaluation goes too deep."
    return 1

/-- The loop on the terminal. -/
partial def interact (limit : Nat) (prompt : String) (w : World) : IO UInt32 := do
  let stdout ← IO.getStdout
  stdout.putStr prompt
  stdout.flush
  let line ← (← IO.getStdin).getLine
  if line.isEmpty then
    stdout.putStr "\n"
    return 0
  let item := Loop.Item.line (String.ofList (line.toList.takeWhile (· ≠ '\n')))
  let action : Action Unit := do
    let text ← Loop.step limit item
    Action.modifyHost (·.print text)
  match ← perform action w with
  | (.ok (), w) => interact limit prompt w
  | (.error s, _) => finish (.ofStop s)

def runOptions (limit : Nat) (user : String) (o : Command.Options) (host : Host) : IO UInt32 := do
  match ← perform (Command.prepare limit o) (Command.startWorld o host) with
  | (.error s, _) => finish (.ofStop s)
  | (.ok (), w) => if Command.wantsLoop o then interact limit (Loop.prompt user) w else return 0

/-- The files that the program can reach from its directory, its roots and its input. -/
def captureFor (o : Command.Options) (roots : List Path) : IO FileSystem := do
  let here := locationOf (← IO.currentDir).toString
  let mut fs ← capture captureDepth here (standardFiles here)
  for root in Command.rootsOf o roots do
    fs ← captureAt fs root.text
  match o.input with
  | none => return fs
  | some name =>
    try return fs.addNode (locationOf (← IO.FS.realPath name).toString) (← readNode name)
    catch _ => return fs

end DynamicLisp.Main

open DynamicLisp in
def main (args : List String) : IO UInt32 := do
  match Command.parse args with
  | .rejected =>
    IO.eprint Command.usageText
    return UInt32.ofNat Command.usageCode.toNat
  | .version =>
    IO.print Command.versionText
    return 0
  | .help =>
    IO.print Command.usageText
    return 0
  | .run o =>
    match Settings.recursionLimit (← IO.getEnv "RLISP_RECURSION_LIMIT") with
    | .error complaint =>
      IO.eprintln complaint
      return 1
    | .ok limit =>
      let roots := Settings.libraryRoots (← IO.getEnv "RLISP_LIB_PATH")
      let user := ((← IO.getEnv "HOME").map fun home => (Path.ofText home).parts.getLast?.getD "")
      let files ← Main.captureFor o roots
      Main.runOptions limit.toNat (user.getD "") o ⟨files, [], "", roots⟩
