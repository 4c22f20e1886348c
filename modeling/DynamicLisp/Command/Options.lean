import DynamicLisp.Text.Digit

/-! The options of the command line and the rules by which arguments are taken for them. -/
namespace DynamicLisp.Command

inductive Flag
  | help | version | library | interactive | logLevel
deriving DecidableEq, Inhabited

/-- The spellings of the options. -/
def spellings : List (String × Flag) :=
  [("-h", .help), ("--help", .help), ("--version", .version), ("--lib", .library),
    ("-l", .library), ("--interactive", .interactive), ("-i", .interactive),
    ("--log-level", .logLevel)]

def logLevels : List String := ["DEBUG", "INFO", "WARNING", "ERROR"]

def Flag.takesValue : Flag → Bool
  | library | logLevel => true
  | help | version | interactive => false

/-- What stands in the same argument as an option, behind it and behind an equals sign between them.
Behind an option with one dash it may be a value or the letters of further options. -/
inductive Attached
  | nothing
  | value (text : List Char)
  | letters (text : List Char)
deriving DecidableEq, Inhabited

/-- What an argument looks like. -/
inductive Shape
  | plain (text : String)
  | separator
  | flag (f : Flag) (attached : Attached)
  | unknown
  | ambiguous
deriving DecidableEq, Inhabited

/-- The text before the first equals sign, and the text behind it if there is one. -/
def cutAtEquals : List Char → List Char × Option (List Char)
  | [] => ([], none)
  | '=' :: cs => ([], some cs)
  | c :: cs => let (name, value) := cutAtEquals cs; (c :: name, value)

/-- What is attached to an option by an equals sign. -/
def Attached.ofText (name : List Char) : Option (List Char) → Attached
  | none => nothing
  | some text => if ['-', '-'].isPrefixOf name then value text else letters text

/-- Options with two dashes may be abbreviated. -/
def longMatches (cs : List Char) : List Shape :=
  let (name, text) := cutAtEquals cs
  (spellings.filter fun (s, _) => name.isPrefixOf s.toList).map fun (_, f) =>
    .flag f (.ofText name text)

/-- A value or further letters may follow an option with one dash immediately. -/
def shortMatches (cs : List Char) : List Shape :=
  (spellings.filter fun (s, _) => s.toList == cs.take 2).map fun (_, f) =>
    .flag f (.letters (cs.drop 2))

/-- An option that is spelled out, alone or before an equals sign. -/
def exactMatch (cs : List Char) : Option Shape :=
  let (name, text) := cutAtEquals cs
  (spellings.lookup (String.ofList name)).map fun f => .flag f (.ofText name text)

/-- Leaves out one line break at the end. -/
def dropLineBreak (cs : List Char) : List Char :=
  if cs.getLast? = some '\n' then cs.dropLast else cs

/-- Negative numbers are not taken for options, even if a line break follows them. -/
def isNegativeNumber (cs : List Char) : Bool :=
  match dropLineBreak cs with
  | '-' :: cs =>
    let (whole, rest) := cs.span Text.isDigit
    match rest with
    | [] => !whole.isEmpty
    | '.' :: fraction => !fraction.isEmpty && fraction.all Text.isDigit
    | _ => false
  | _ => false

def shapeOf (arg : String) : Shape :=
  let cs := arg.toList
  match cs with
  | '-' :: second :: _ =>
    match exactMatch cs with
    | some s => s
    | none =>
      match if second = '-' then longMatches cs else shortMatches cs with
      | [s] => s
      | [] => if isNegativeNumber cs || cs.contains ' ' then .plain arg else .unknown
      | _ => .ambiguous
  | _ => .plain arg

/-- The shapes of all arguments. Behind two dashes alone everything is plain. -/
def shapes : List String → List Shape
  | [] => []
  | "--" :: args => .separator :: args.map .plain
  | arg :: args => shapeOf arg :: shapes args

structure Options where
  library : Option String
  interactive : Bool
  input : Option String
deriving DecidableEq, Inhabited

inductive Request
  | run (o : Options)
  | version
  | help
  | rejected
deriving DecidableEq, Inhabited

/-- The flags that one argument stands for. The last of them has the value, if there is one. -/
structure Cluster where
  flags : List Flag
  value : Option String
deriving DecidableEq, Inhabited

def Cluster.cons (f : Flag) (c : Cluster) : Cluster := { c with flags := f :: c.flags }

/-- A flag and the letters behind it, as in `-il`. Each letter is a flag up to one that takes a
value, and what follows that one is its value. -/
def clusterOf (f : Flag) : List Char → Option Cluster
  | [] => some ⟨[f], none⟩
  | c :: cs =>
    if f.takesValue then some ⟨[f], some (String.ofList (c :: cs))⟩
    else (spellings.lookup (String.ofList ['-', c])).bind fun g => (clusterOf g cs).map (.cons f)

/-- Only an option that takes a value may have an empty text behind its equals sign. -/
def expand (f : Flag) : Attached → Option Cluster
  | .nothing => some ⟨[f], none⟩
  | .letters [] => if f.takesValue then some ⟨[f], some ""⟩ else none
  | .value text => if f.takesValue then some ⟨[f], some (String.ofList text)⟩ else none
  | .letters text => clusterOf f text

/-- What flags without a value ask for, one after the other. -/
def applyFlags (o : Options) : List Flag → Except Request Options
  | [] => .ok o
  | .help :: _ => .error .help
  | .version :: _ => .error .version
  | .interactive :: fs => applyFlags { o with interactive := true } fs
  | _ :: fs => applyFlags o fs

/-- Two dashes are no value: the option stands for its default then. -/
def applyValue (o : Options) (f : Flag) (value : String) : Except Request Options :=
  match f with
  | .library => .ok { o with library := if value = "--" then none else some value }
  | .logLevel => if value = "--" ∨ value ∈ logLevels then .ok o else .error .rejected
  | _ => .ok o

/-- What the arguments ask for, after the options `o`. The flag `taken` tells that the place of the
input has been passed, and `extra` that there was an argument without a place. -/
def collect (o : Options) (taken extra : Bool) : List Shape → Request
  | [] => if extra then .rejected else .run o
  | .plain text :: .separator :: rest | .separator :: .plain text :: rest | .plain text :: rest =>
    if taken then collect o true true rest
    else collect { o with input := some text } true extra rest
  | .separator :: rest => collect o true (extra || taken) rest
  | .unknown :: rest => collect o taken true rest
  | .ambiguous :: _ => .rejected
  | .flag f attached :: rest =>
    match expand f attached with
    | none => .rejected
    | some c =>
      let last := c.flags.getLast?.getD f
      match last.takesValue, c.value, rest with
      | true, some value, rest | true, none, .plain value :: rest =>
        match applyFlags o c.flags >>= (applyValue · last value) with
        | .ok o => collect o taken extra rest
        | .error r => r
      | true, none, _ => .rejected
      | false, _, rest =>
        match applyFlags o c.flags with
        | .ok o => collect o taken extra rest
        | .error r => r

/-- What a command line asks for. -/
def parse (args : List String) : Request :=
  let ss := shapes args
  if ss.contains .ambiguous then .rejected else collect ⟨none, false, none⟩ false false ss

end DynamicLisp.Command
