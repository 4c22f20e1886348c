import DynamicLisp.Editor.Document

/-! What an editor tells and asks about documents, and what it gets in return. -/
namespace DynamicLisp.Editor

/-- What an editor tells about a document, or asks about it. -/
inductive Message
  | opened (text : String)
  | changed (texts : List String)
  | closed
  | hover (p : Position)
  | completion
  | signature (p : Position)
  | symbols
deriving DecidableEq, Inhabited

structure Event where
  uri : String
  message : Message
deriving DecidableEq, Inhabited

inductive Answer
  /-- There is nothing to answer. -/
  | none
  | hover (contents : Option String)
  | completion (items : List Completion)
  | signature (shape : Option (String × List String))
  | symbols (definitions : Option (List Definition))
deriving Inhabited

/-- What an editor gets for an event: an answer, and complaints about documents. -/
structure Response where
  answer : Answer
  published : List (String × List Diagnostic)
deriving Inhabited

namespace Response

/-- Publishes all complaints about a document. -/
def publish (uri : String) (found : List Diagnostic) : Response := ⟨.none, [(uri, found)]⟩

def reply (answer : Answer) : Response := ⟨answer, []⟩

end Response

namespace Documents

/-- What an editor gets for an event, and the documents that are open after it. -/
def respond (ds : Documents) : Event → Response × Documents
  | ⟨uri, .opened text⟩ =>
    let (ds, found) := ds.opened uri text
    (.publish uri found, ds)
  | ⟨uri, .changed texts⟩ =>
    let (ds, found) := ds.changed uri texts
    (.publish uri found, ds)
  | ⟨uri, .closed⟩ =>
    let (ds, found) := ds.closed uri
    (.publish uri found, ds)
  | ⟨uri, .hover p⟩ => (.reply (.hover (ds.hover uri p)), ds)
  | ⟨uri, .completion⟩ => (.reply (.completion (ds.completions uri)), ds)
  | ⟨uri, .signature p⟩ => (.reply (.signature (ds.signature uri p)), ds)
  | ⟨uri, .symbols⟩ => (.reply (.symbols (ds.symbols uri)), ds)

/-- Responds to events one after the other. -/
def serve (ds : Documents) : List Event → List Response × Documents
  | [] => ([], ds)
  | e :: es =>
    let (r, ds) := ds.respond e
    let (rs, ds) := ds.serve es
    (r :: rs, ds)

end Documents

end DynamicLisp.Editor
