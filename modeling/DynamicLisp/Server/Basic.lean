import DynamicLisp.Server.Json
import DynamicLisp.Session.Basic

/-! The server that evaluates requests. Clients send one JSON object a line and get one reply for
each line that is not blank. All requests share one session. -/
namespace DynamicLisp

inductive Reply
  | result (text : String)
  | failure (message : String)
deriving DecidableEq, Inhabited

namespace Reply

def unknownCommand (cmd : Option Json) : Reply := failure ("Unknown cmd: " ++ (cmd.getD .null).text)

def codeNotString : Reply := failure "Field 'code' must be a string."

def invalid (complaint : String) : Reply := failure ("Invalid request: " ++ complaint)

/-- The reply to an evaluation. The server goes on after a failure and after an exit. -/
def ofResult : Except Stop Datum → Except Stop Reply
  | .ok d => .ok (result d.display)
  | .error (.error e) => .ok (failure e.message)
  | .error (.exit code) =>
    .ok (failure ("Program exited with code " ++ Text.signedDecimal code ++ "."))
  | .error s => .error s

end Reply

namespace Server

def evalCode (limit : Nat) (code : String) : Action Reply := fun w =>
  let (r, w) := Session.evalText limit code w
  (Reply.ofResult r, w)

/-- Answers a request. Without code there is nothing to evaluate. -/
def handle (limit : Nat) (request : Table String Json) : Action Reply :=
  match request.find? "cmd" with
  | some (.string "eval") =>
    match request.find? "code" with
    | none => evalCode limit ""
    | some (.string code) => evalCode limit code
    | some _ => return .codeNotString
  | cmd => return .unknownCommand cmd

/-- The bytes that are dropped from both ends of a line. -/
def isBlankByte (b : UInt8) : Bool := b == 32 || (9 ≤ b && b ≤ 13)

def trimBytes (line : List UInt8) : List UInt8 :=
  ((line.dropWhile isBlankByte).reverse.dropWhile isBlankByte).reverse

/-- A line that can be read as a JSON value, or a complaint about it. -/
abbrev Decoder := List UInt8 → Except String Json

/-- Reads a line as UTF-8 and then as JSON, with integers of any length and lists of any depth. The
complaints name the kind of fault and no more; what clients are told of a malformed line also gives
its place and what was found there. Nothing that is said of replies depends on these texts, as it is
said for every decoder. -/
def decode : Decoder := fun bytes =>
  match String.fromUTF8? ⟨bytes.toArray⟩ with
  | none => .error "malformed UTF-8"
  | some text =>
    match Json.ofText? text with
    | none => .error "malformed JSON"
    | some j => .ok j

section
variable (decode : Decoder) (limit : Nat)

/-- Answers a line that is not blank. -/
def answer (bytes : List UInt8) : Action Reply :=
  match decode bytes with
  | .error complaint => return .invalid complaint
  | .ok (.object request) => handle limit request
  | .ok _ => return .invalid "expected an object"

/-- Answers a line, unless it is blank. -/
def answerLine (line : List UInt8) : Action (List Reply) :=
  match trimBytes line with
  | [] => return []
  | bytes => do return [← answer decode limit bytes]

/-- Answers lines one after the other. -/
def answerLines : List (List UInt8) → Action (List Reply)
  | [] => return []
  | line :: lines => do
    let first ← answerLine decode limit line
    let rest ← answerLines lines
    return first ++ rest

end

/-- The lines that are complete, and the bytes behind the last of them, last byte first. Bytes that
wait for the end of their line come before the text, also last byte first. -/
def cutLines (waiting : List UInt8) : List UInt8 → List (List UInt8) × List UInt8
  | [] => ([], waiting)
  | b :: bs =>
    if b = 10 then
      let (lines, rest) := cutLines [] bs
      (waiting.reverse :: lines, rest)
    else cutLines (b :: waiting) bs

theorem cutLines_append (waiting bs cs : List UInt8) :
    cutLines waiting (bs ++ cs) =
      ((cutLines waiting bs).1 ++ (cutLines (cutLines waiting bs).2 cs).1,
        (cutLines (cutLines waiting bs).2 cs).2) := by
  induction bs generalizing waiting with
  | nil => rfl
  | cons b bs ih => grind [cutLines]

section
variable (decode : Decoder) (limit : Nat)

/-- Takes the next piece of a connection of which some bytes are still waiting for the end of their
line. -/
def receive (waiting piece : List UInt8) : Action (List Reply × List UInt8) := do
  let (lines, rest) := cutLines waiting piece
  let replies ← answerLines decode limit lines
  return (replies, rest)

/-- Serves a connection that delivers the given pieces. An empty piece is the end of it. -/
def serveWith (waiting : List UInt8) : List (List UInt8) → Action (List Reply)
  | [] | [] :: _ => return []
  | piece :: pieces => do
    let (replies, rest) ← receive decode limit waiting piece
    let more ← serveWith rest pieces
    return replies ++ more

end

def serve : Nat → List UInt8 → List (List UInt8) → Action (List Reply) := serveWith decode

end Server

end DynamicLisp
