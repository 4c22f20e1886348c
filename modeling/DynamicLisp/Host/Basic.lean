import DynamicLisp.Host.FileSystem

/-! The surroundings of a running program: files, standard input and output, library roots. -/
namespace DynamicLisp

structure Host where
  files : FileSystem
  /-- What is left of standard input, which is text. -/
  input : List Char
  /-- What has been printed. -/
  output : String
  /-- The directories in which source files are looked up after the working directory. -/
  roots : List Path
deriving Inhabited

namespace Host

def print (h : Host) (s : String) : Host := { h with output := h.output ++ s }

/-- Takes the next line of standard input, without the `\n` that ends it. -/
def readLine? (h : Host) : Option (String × Host) :=
  match h.input with
  | [] => none
  | cs =>
    let (line, rest) := cs.span (· ≠ '\n')
    some (String.ofList line, { h with input := rest.tail })

/-- The file that a name stands for: in the working directory first, then in each root. -/
def resolve? (h : Host) (name : String) : Except HostFault (Option Path) := do
  let p := Path.ofText name
  if ← h.files.isFile p then return some p
  else if p.isAbsolute then return none
  else h.files.firstFile? (h.roots.map (·.join p))

end Host

end DynamicLisp
