import DynamicLisp.Editor.Service

/-! The store of open documents. What is held of a document, and what an editor gets for the events
about it, follow from these events alone (`serve_store`). -/
namespace DynamicLisp.Editor

namespace Message

/-- The message says what the editor shows. The other messages ask. -/
def isSync : Message → Bool
  | opened _ | changed _ | closed => true
  | _ => false

/-- The whole text that comes with a message. -/
def content? : Message → Option String
  | opened text => some text
  | changed texts => texts.getLast?
  | _ => none

/-- The messages behind the last one that closes the document. -/
def sinceClosed (ms : List Message) : List Message := (ms.reverse.takeWhile (· ≠ closed)).reverse

end Message

/-- The events about a document. -/
def about (uri : String) (events : List Event) : List Event := events.filter (·.uri = uri)

/-- Of the responses to events, those to the events about a document. -/
def responsesAbout (uri : String) (events : List Event) (rs : List Response) : List Response :=
  ((events.zip rs).filter (·.1.uri = uri)).map (·.2)

/-- What is held of a document after messages about it. There is an entry if the last message that is
no question has not closed it. Its text is the last one that came since the document was closed, or
empty. Where there is no entry, no text has come. -/
structure Held (ms : List Message) (entry : Option Document) : Prop where
  isSome_iff : entry.isSome ↔ ∃ m, (ms.filter Message.isSync).getLast? = some m ∧ m ≠ .closed
  text : (entry.map Document.text).getD "" =
    ((Message.sinceClosed ms).filterMap Message.content?).getLast?.getD ""
  index : ∀ d, entry = some d → d.index = Index.ofText d.text

/-- What is published for an event, by what is held of the document afterwards. -/
inductive Publishes : Event → Option Document → List (String × List Diagnostic) → Prop
  | shown {uri : String} {m : Message} (d : Document) : m.isSync = true → m ≠ .closed →
    Publishes ⟨uri, m⟩ (some d) [(uri, diagnostics d.index)]
  | closed (uri : String) : Publishes ⟨uri, .closed⟩ none [(uri, [])]
  | asked {uri : String} {m : Message} (entry : Option Document) : m.isSync = false →
    Publishes ⟨uri, m⟩ entry []

variable {uri : String} {m : Message} {ms : List Message} {entry : Option Document} {e : Event}
  {ds ds' : Documents}

/-! ### What is held -/

theorem Message.sinceClosed_concat (h : m ≠ .closed) (ms : List Message) :
    sinceClosed (ms ++ [m]) = sinceClosed ms ++ [m] := by simp [sinceClosed, h]

theorem Held.nil : Held [] none := ⟨by simp, rfl, nofun⟩

theorem Held.closed (ms : List Message) : Held (ms ++ [.closed]) none :=
  ⟨by simp [Message.isSync], by simp [Message.sinceClosed], nofun⟩

/-- A question changes nothing. -/
theorem Held.asked (h : Held ms entry) (hm : m.isSync = false) : Held (ms ++ [m]) entry := by
  have hclosed : m ≠ .closed := by
    rintro rfl
    cases hm
  have hcontent : m.content? = none := by cases m <;> first | rfl | cases hm
  constructor
  · simpa [hm] using h.isSome_iff
  · simpa [Message.sinceClosed_concat hclosed, hcontent] using h.text
  · exact h.index

/-- What the editor shows is held. A message without a text keeps the text. -/
theorem Held.shown (h : Held ms entry) (hm : m.isSync = true) (hclosed : m ≠ .closed) :
    Held (ms ++ [m])
      (some (.ofText (m.content?.getD ((entry.map Document.text).getD "")))) := by
  constructor
  · simpa [hm] using hclosed
  · rw [h.text, Message.sinceClosed_concat hclosed]
    cases hcontent : m.content? with
    | none => simp [hcontent, Document.ofText]
    | some text => simp [hcontent, Document.ofText]
  · rintro _ ⟨⟩
    rfl

/-! ### One event -/

namespace Documents

/-- The text of a document after a message shows it. -/
def shownText (ds : Documents) (e : Event) : String :=
  e.message.content?.getD (((ds.find? e.uri).map Document.text).getD "")

theorem respond_cases (ds : Documents) (e : Event) :
    (e.message.isSync = true ∧ e.message ≠ .closed ∧ ∃ d, d = .ofText (ds.shownText e) ∧
      ds.respond e = (.publish e.uri (diagnostics d.index), ds.set e.uri d)) ∨
    (e.message = .closed ∧ ds.respond e = (.publish e.uri [], ds.erase e.uri)) ∨
    (e.message.isSync = false ∧ ∃ answer, ds.respond e = (.reply answer, ds)) := by
  obtain ⟨uri, m⟩ := e
  cases m with
  | opened text => exact .inl ⟨rfl, nofun, _, rfl, rfl⟩
  | changed texts => exact .inl ⟨rfl, nofun, _, rfl, rfl⟩
  | closed => exact .inr (.inl ⟨rfl, rfl⟩)
  | _ => exact .inr (.inr ⟨rfl, _, rfl⟩)

theorem held_respond (h : Held ms (ds.find? e.uri)) :
    Held (ms ++ [e.message]) ((ds.respond e).2.find? e.uri) := by
  rcases ds.respond_cases e with ⟨hsync, hopen, d, rfl, hr⟩ | ⟨hclosed, hr⟩ | ⟨hasked, answer, hr⟩
  · rw [hr, Table.find?_set, if_pos rfl]
    exact h.shown hsync hopen
  · rw [hr, Table.find?_erase, if_pos rfl, hclosed]
    exact .closed ms
  · rw [hr]
    exact h.asked hasked

theorem publishes_respond (ds : Documents) (e : Event) :
    Publishes e ((ds.respond e).2.find? e.uri) (ds.respond e).1.published := by
  rcases ds.respond_cases e with ⟨hsync, hopen, d, _, hr⟩ | ⟨hclosed, hr⟩ | ⟨hasked, answer, hr⟩
  · rw [hr, Table.find?_set, if_pos rfl]
    exact .shown d hsync hopen
  · obtain ⟨uri, m⟩ := e
    cases hclosed
    rw [hr, Table.find?_erase, if_pos rfl]
    exact .closed uri
  · rw [hr]
    exact .asked _ hasked

/-- No other document is touched. -/
theorem find?_respond_other (h : e.uri ≠ uri) (ds : Documents) :
    (ds.respond e).2.find? uri = ds.find? uri := by
  rcases ds.respond_cases e with ⟨_, _, d, _, hr⟩ | ⟨_, hr⟩ | ⟨_, answer, hr⟩
  · rw [hr, Table.find?_set, if_neg h]
  · rw [hr, Table.find?_erase, if_neg h]
  · rw [hr]

/-- The response to an event, and what is held afterwards of its document, depend on no other
document. -/
theorem respond_congr (h : ds.find? e.uri = ds'.find? e.uri) :
    (ds.respond e).1 = (ds'.respond e).1 ∧
      (ds.respond e).2.find? e.uri = (ds'.respond e).2.find? e.uri := by
  obtain ⟨uri, m⟩ := e
  cases m with
  | opened text => simp [respond, opened, put, Table.find?_set]
  | changed texts => simp only [respond, changed, put, h, Table.find?_set, and_self]
  | closed => simp [respond, Documents.closed, Table.find?_erase]
  | hover p => simp only [respond, hover, h, and_self]
  | completion => simp only [respond, completions, h, and_self]
  | signature p => simp only [respond, signature, h, and_self]
  | symbols => simp only [respond, symbols, h, and_self]

/-! ### All events -/

theorem serve_append (ds : Documents) (before after : List Event) :
    ds.serve (before ++ after) =
      ((ds.serve before).1 ++ ((ds.serve before).2.serve after).1,
        ((ds.serve before).2.serve after).2) := by
  induction before generalizing ds with
  | nil => rfl
  | cons e before ih => simp [serve, ih]

theorem length_serve (ds : Documents) (events : List Event) :
    (ds.serve events).1.length = events.length := by
  induction events generalizing ds with
  | nil => rfl
  | cons e events ih => simp [serve, ih]

theorem held_serve (h : Held ms (ds.find? uri)) (events : List Event) :
    Held (ms ++ (about uri events).map Event.message) ((ds.serve events).2.find? uri) := by
  induction events generalizing ms ds with
  | nil => simpa [about, serve] using h
  | cons e events ih =>
    by_cases he : e.uri = uri
    · subst he
      simpa [about, serve] using ih (held_respond h)
    · rw [← find?_respond_other he ds] at h
      simpa [about, serve, he] using ih h

/-- The events about a document have the responses that they have without the other events. -/
theorem serve_about (h : ds.find? uri = ds'.find? uri) (events : List Event) :
    responsesAbout uri events (ds.serve events).1 = (ds'.serve (about uri events)).1 := by
  induction events generalizing ds ds' with
  | nil => rfl
  | cons e events ih =>
    by_cases he : e.uri = uri
    · subst he
      obtain ⟨hresponse, hfind⟩ := respond_congr h
      simpa [responsesAbout, about, serve, hresponse] using ih hfind
    · rw [← find?_respond_other he ds] at h
      simpa [responsesAbout, about, serve, he] using ih h

/-- The store of open documents, from its beginning. What is held of each document follows from the
messages about it. An event has one response, and publishes complaints about its own document or,
if it asks, none. Responses depend only on what is held of the document, and thus on no event about
another one. -/
theorem serve_store (events : List Event) :
    (∀ uri, Held ((about uri events).map Event.message)
      ((Documents.serve .empty events).2.find? uri)) ∧
    (Documents.serve .empty events).1.length = events.length ∧
    (∀ before e after, events = before ++ e :: after →
      ∃ r, (Documents.serve .empty events).1[before.length]? = some r ∧
        Publishes e ((Documents.serve .empty (before ++ [e])).2.find? e.uri) r.published) ∧
    (∀ (ds ds' : Documents) (e : Event), ds.find? e.uri = ds'.find? e.uri →
      (ds.respond e).1 = (ds'.respond e).1) ∧
    (∀ uri events', about uri events = about uri events' →
      responsesAbout uri events (Documents.serve .empty events).1 =
        responsesAbout uri events' (Documents.serve .empty events').1) := by
  refine ⟨fun uri => ?_, length_serve .empty events, ?_, fun ds ds' e h => (respond_congr h).1, ?_⟩
  · have hempty : Held [] (Table.find? (.empty : Documents) uri) := .nil
    exact held_serve hempty events
  · rintro before e after rfl
    refine ⟨((Documents.serve .empty before).2.respond e).1, ?_, ?_⟩
    · simp [serve_append, length_serve, serve]
    · rw [serve_append]
      exact publishes_respond _ e
  · intro uri events' h
    have halone (es : List Event) : responsesAbout uri es (Documents.serve .empty es).1 =
        (Documents.serve .empty (about uri es)).1 := serve_about rfl es
    rw [halone, halone, h]

/-- A change without a text, while a second document is opened and closed. -/
theorem serve_store_kept :
    let alone : List Event := [⟨"a", .opened "(f"⟩, ⟨"a", .changed []⟩]
    let events : List Event :=
      [⟨"a", .opened "(f"⟩, ⟨"b", .opened "x"⟩, ⟨"a", .changed []⟩, ⟨"b", .closed⟩]
    let rs := (Documents.serve .empty events).1
    let ds := (Documents.serve .empty events).2
    ds.find? "b" = none ∧
      (∃ d, ds.find? "a" = some d ∧ d.text = "(f" ∧ d.index = Index.ofText "(f") ∧
      responsesAbout "a" events rs = responsesAbout "a" alone (Documents.serve .empty alone).1 ∧
      rs[2]?.map Response.published =
        some [("a", [.malformed .endInList, .unmatchedParentheses])] := by
  intro alone events rs ds
  obtain ⟨hheld, -, -, -, hsame⟩ := serve_store events
  have ha : Held [.opened "(f", .changed []] (ds.find? "a") := hheld "a"
  have hb : Held [.opened "x", .closed] (ds.find? "b") := hheld "b"
  have hnone : ds.find? "b" = none := by
    rw [← Option.not_isSome_iff_eq_none, hb.isSome_iff]
    rintro ⟨m, ⟨⟩, hopen⟩
    exact hopen rfl
  obtain ⟨d, hd⟩ := Option.isSome_iff_exists.1 (ha.isSome_iff.2 ⟨.changed [], rfl, nofun⟩)
  have htext : d.text = "(f" := by
    have hlast := ha.text
    rw [hd] at hlast
    exact hlast
  have hindex : d.index = Index.ofText "(f" := by rw [ha.index d hd, htext]
  exact ⟨hnone, ⟨d, hd, htext, hindex⟩, hsame "a" alone rfl, by decide +kernel⟩

end Documents

end DynamicLisp.Editor
