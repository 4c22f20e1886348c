import DynamicLisp.Error
import DynamicLisp.Host.Path
import DynamicLisp.Text.Lines
import DynamicLisp.Table

/-! A tree of files and directories, and what reading and writing do to it. -/
namespace DynamicLisp

/-- The names on the way to a place in the tree, the last one first. The root has none. -/
abbrev Location := List String

inductive Node
  | file (content : String)
  /-- A file whose bytes are not the encoding of a text. -/
  | binary
  | directory
  /-- A directory that may be neither read nor entered. -/
  | closed
deriving DecidableEq, Inhabited

structure FileSystem where
  nodes : Table Location Node
  /-- The directory from which relative paths start. -/
  here : Location
deriving Inhabited

namespace FileSystem

/-- The greatest number of bytes in a name. -/
def maxNameSize : Nat := 255

/-- The greatest number of bytes in a path. -/
def maxPathSize : Nat := 4095

/-- What is at a location. The root is always there. -/
def node? (fs : FileSystem) (l : Location) : Option Node :=
  match l with
  | [] => some .directory
  | _ => fs.nodes.find? l

/-- One step along a path, from a place that has to be a directory. -/
def step (fs : FileSystem) (l : Location) (part : String) : Except HostFault Location :=
  match fs.node? l with
  | none => .error (.system .missing)
  | some .directory =>
    if maxNameSize < part.utf8ByteSize then .error (.system .nameTooLong)
    else .ok (if part = ".." then l.tail else part :: l)
  | some .closed => .error (.system .denied)
  | some _ => .error (.system .notDirectory)

/-- The location that a path denotes. Nothing needs to be there yet. -/
def locate (fs : FileSystem) (p : Path) : Except HostFault Location :=
  if p.hasNul then .error .nulInPath
  else if maxPathSize < p.text.utf8ByteSize then .error (.system .nameTooLong)
  else p.parts.foldlM fs.step (if p.isAbsolute then [] else fs.here)

/-- What is at the end of a path. -/
def find (fs : FileSystem) (p : Path) : Except HostFault Node := do
  match fs.node? (← fs.locate p) with
  | some node => return node
  | none => throw (.system .missing)

/-- The content of the file at a path. -/
def content (fs : FileSystem) (p : Path) : Except HostFault String := do
  match ← fs.find p with
  | .file content => return content
  | .binary => throw .notText
  | .directory => throw (.system .isDirectory)
  | .closed => throw (.system .denied)

/-- Whether there is a file at a path. A path that leads nowhere or is none has no file; other errors
on the way are raised. -/
def isFile (fs : FileSystem) (p : Path) : Except HostFault Bool :=
  match fs.find p with
  | .ok (.file _) | .ok .binary => .ok true
  | .ok _ => .ok false
  | .error (.system e) => if e.isAbsence then .ok false else .error (.system e)
  | .error _ => .ok false

/-- The first path at which there is a file. -/
def firstFile? (fs : FileSystem) (ps : List Path) : Except HostFault (Option Path) :=
  ps.findM? fs.isFile

/-- The text of a file, with every line end in the form `\n`. -/
def read (fs : FileSystem) (p : Path) : Except HostFault (List Char) := do
  return Text.unifyLineEnds (← fs.content p).toList

/-- Makes a text the whole content of a file. A text consists of characters, so it always has an
encoding. -/
def write (fs : FileSystem) (p : Path) (content : String) : Except HostFault FileSystem := do
  let l ← fs.locate p
  match fs.node? l with
  | some .directory | some .closed => throw (.system .isDirectory)
  | _ => return { fs with nodes := fs.nodes.set l (.file content) }

/-- Adds a directory together with those around it. -/
def addDirectory (fs : FileSystem) : Location → FileSystem
  | [] => fs
  | name :: l =>
    let fs := fs.addDirectory l
    { fs with nodes := fs.nodes.set (name :: l) .directory }

/-- Adds something at a location together with the directories around it. -/
def addNode (fs : FileSystem) (l : Location) (node : Node) : FileSystem :=
  let fs := fs.addDirectory l.tail
  { fs with nodes := fs.nodes.set l node }

def addFile (fs : FileSystem) (l : Location) (content : String) : FileSystem :=
  fs.addNode l (.file content)

/-- An empty tree with a working directory. -/
def atLocation (here : Location) : FileSystem := addDirectory ⟨.empty, here⟩ here

end FileSystem

end DynamicLisp
