import DynamicLisp.Proofs.Evaluation.Relational
import DynamicLisp.Server.Basic

/-! Connections. The replies do not depend on how the bytes of the requests are cut into pieces: there
is one for each line that ends and is not blank (`serve_pieces`). -/
namespace DynamicLisp.Server

/-- Bytes as lines with their ends, and what stands behind the last end. -/
structure Lines (bytes : List UInt8) (lines : List (List UInt8)) (rest : List UInt8) : Prop where
  joined : bytes = lines.flatMap (· ++ [10]) ++ rest
  ended : ∀ line ∈ lines, 10 ∉ line
  unended : 10 ∉ rest

section
variable (decode : Decoder) (limit : Nat) (line : List UInt8)

/-- What a line gets in reply, with the worlds before and after it. -/
inductive Replied : World → List Reply → World → Prop
  | blank (w : World) : trimBytes line = [] → Replied w [] w
  | invalid {complaint : String} (w : World) :
    trimBytes line ≠ [] → decode (trimBytes line) = .error complaint →
    Replied w [.invalid complaint] w
  | notAnObject {j : Json} (w : World) :
    trimBytes line ≠ [] → decode (trimBytes line) = .ok j → (∀ request, j ≠ .object request) →
    Replied w [.invalid "expected an object"] w
  | request {request : Table String Json} {reply : Reply} {w w' : World} :
    trimBytes line ≠ [] → decode (trimBytes line) = .ok (.object request) →
    handle limit request w = (.ok reply, w') → Replied w [reply] w'

/-- The request of a line stops the server. -/
def Stops (w : World) (s : Stop) (w' : World) : Prop :=
  ∃ request, trimBytes line ≠ [] ∧ decode (trimBytes line) = .ok (.object request) ∧
    handle limit request w = (.error s, w')

end

/-- What lines get in reply, each in the world that those before it leave. -/
inductive Answered (decode : Decoder) (limit : Nat) :
    List (List UInt8) → World → List Reply → World → Prop
  | nil (w : World) : Answered decode limit [] w [] w
  | cons {line : List UInt8} {lines : List (List UInt8)} {w w₁ w' : World}
    {first replies : List Reply} : Replied decode limit line w first w₁ →
    Answered decode limit lines w₁ replies w' →
    Answered decode limit (line :: lines) w (first ++ replies) w'

variable {decode : Decoder} {limit : Nat} {line rest bytes waiting : List UInt8}
  {lines pieces : List (List UInt8)} {w w' : World} {replies : List Reply}

/-! ### Lines -/

theorem cutLines_unended (h : 10 ∉ rest) (waiting : List UInt8) :
    cutLines waiting rest = ([], rest.reverse ++ waiting) := by
  induction rest generalizing waiting with
  | nil => rfl
  | cons b bs ih =>
    have hb : b ≠ 10 := fun he => h (he ▸ List.mem_cons_self)
    have hbs : 10 ∉ bs := fun hmem => h (List.mem_cons_of_mem b hmem)
    simp [cutLines, hb, ih hbs]

theorem cutLines_line (h : 10 ∉ line) (waiting bytes : List UInt8) :
    cutLines waiting (line ++ 10 :: bytes) =
      ((waiting.reverse ++ line) :: (cutLines [] bytes).1, (cutLines [] bytes).2) := by
  have hcut := cutLines_append waiting line (10 :: bytes)
  rw [cutLines_unended h] at hcut
  rw [hcut]
  simp [cutLines]

/-- Bytes are lines in one way. -/
theorem Lines.cutLines_eq (h : Lines bytes lines rest) :
    cutLines [] bytes = (lines, rest.reverse) := by
  obtain ⟨rfl, hended, hunended⟩ := h
  induction lines with
  | nil => simpa using cutLines_unended hunended []
  | cons line lines ih =>
    obtain ⟨hline, hlines⟩ := List.forall_mem_cons.1 hended
    have hcut := cutLines_line hline [] (lines.flatMap (· ++ [10]) ++ rest)
    rw [ih hlines] at hcut
    simpa using hcut

theorem exists_lines (bytes : List UInt8) : ∃ lines rest, Lines bytes lines rest := by
  induction bytes with
  | nil => exact ⟨[], [], rfl, nofun, nofun⟩
  | cons b bytes ih =>
    obtain ⟨lines, rest, rfl, hended, hunended⟩ := ih
    by_cases hb : b = 10
    · refine ⟨[] :: lines, rest, by simp [hb], ?_, hunended⟩
      exact List.forall_mem_cons.2 ⟨nofun, hended⟩
    · cases lines with
      | nil => exact ⟨[], b :: rest, rfl, hended, by simpa [hunended] using Ne.symm hb⟩
      | cons line lines =>
        refine ⟨(b :: line) :: lines, rest, by simp, ?_, hunended⟩
        obtain ⟨hline, hlines⟩ := List.forall_mem_cons.1 hended
        exact List.forall_mem_cons.2 ⟨by simpa [hline] using Ne.symm hb, hlines⟩

/-! ### Replies -/

theorem answerLines_append (xs ys : List (List UInt8)) : answerLines decode limit (xs ++ ys) = do
    let first ← answerLines decode limit xs
    let rest ← answerLines decode limit ys
    return first ++ rest := by
  induction xs with
  | nil => simp [answerLines]
  | cons x xs ih =>
    simp only [answerLines, ih, List.cons_append, bind_assoc, pure_bind, List.append_assoc]

/-- The lines of the pieces are answered in order, whatever piece they come in. -/
theorem serveWith_eq (h : ∀ piece ∈ pieces, piece ≠ []) (waiting : List UInt8) :
    serveWith decode limit waiting pieces =
      answerLines decode limit (cutLines waiting pieces.flatten).1 := by
  induction pieces generalizing waiting with
  | nil => rfl
  | cons piece pieces ih =>
    obtain ⟨hpiece, hpieces⟩ := List.forall_mem_cons.1 h
    rw [List.flatten_cons, cutLines_append, answerLines_append, serveWith, receive]
    · simp [ih hpieces]
    · exact hpiece

theorem answerLine_blank (h : trimBytes line = []) :
    answerLine decode limit line = return [] := by
  rw [answerLine, h]

theorem answerLine_of_ne (h : trimBytes line ≠ []) :
    answerLine decode limit line = do return [← answer decode limit (trimBytes line)] := by
  unfold answerLine
  split
  · contradiction
  · rfl

theorem answer_error {complaint : String} (h : decode bytes = .error complaint) :
    answer decode limit bytes = return .invalid complaint := by
  rw [answer, h]

theorem answer_object {request : Table String Json} (h : decode bytes = .ok (.object request)) :
    answer decode limit bytes = handle limit request := by
  rw [answer, h]

theorem answer_other {j : Json} (h : decode bytes = .ok j) (hj : ∀ request, j ≠ .object request) :
    answer decode limit bytes = return .invalid "expected an object" := by
  rw [answer, h]
  cases j with
  | object request => exact (hj request rfl).elim
  | _ => rfl

/-- What a line can be, if it is not blank. -/
theorem decode_cases (decode : Decoder) (bytes : List UInt8) :
    (∃ complaint, decode bytes = .error complaint) ∨
    (∃ request, decode bytes = .ok (.object request)) ∨
    ∃ j, decode bytes = .ok j ∧ ∀ request, j ≠ .object request := by
  cases h : decode bytes with
  | error complaint => exact .inl ⟨complaint, rfl⟩
  | ok j =>
    cases j with
    | object request => exact .inr (.inl ⟨request, rfl⟩)
    | _ => exact .inr (.inr ⟨_, rfl, nofun⟩)

theorem answerLine_eq_ok : answerLine decode limit line w = (.ok replies, w') ↔
    Replied decode limit line w replies w' := by
  constructor
  · intro h
    by_cases hblank : trimBytes line = []
    · rw [answerLine_blank hblank] at h
      cases h
      exact .blank w hblank
    rw [answerLine_of_ne hblank] at h
    obtain ⟨reply, w₁, hreply, he⟩ := Action.bind_ok h
    cases he
    rcases decode_cases decode (trimBytes line) with ⟨complaint, hd⟩ | ⟨request, hd⟩ | ⟨j, hd, hj⟩
    · rw [answer_error hd] at hreply
      cases hreply
      exact .invalid w hblank hd
    · rw [answer_object hd] at hreply
      exact .request hblank hd hreply
    · rw [answer_other hd hj] at hreply
      cases hreply
      exact .notAnObject w hblank hd hj
  · intro h
    cases h with
    | blank _ hblank => rw [answerLine_blank hblank]; rfl
    | invalid _ hblank hd => rw [answerLine_of_ne hblank, answer_error hd]; rfl
    | notAnObject _ hblank hd hj => rw [answerLine_of_ne hblank, answer_other hd hj]; rfl
    | request hblank hd hreply =>
      rw [answerLine_of_ne hblank, answer_object hd]
      exact Action.bind_eq_ok.2 ⟨_, _, hreply, rfl⟩

theorem answerLine_eq_error {s : Stop} : answerLine decode limit line w = (.error s, w') ↔
    Stops decode limit line w s w' := by
  constructor
  · intro h
    by_cases hblank : trimBytes line = []
    · rw [answerLine_blank hblank] at h
      cases h
    rw [answerLine_of_ne hblank] at h
    rcases Action.bind_eq_error.1 h with hstop | ⟨reply, w₁, _, he⟩
    · rcases decode_cases decode (trimBytes line) with
        ⟨complaint, hd⟩ | ⟨request, hd⟩ | ⟨j, hd, hj⟩
      · rw [answer_error hd] at hstop
        cases hstop
      · rw [answer_object hd] at hstop
        exact ⟨request, hblank, hd, hstop⟩
      · rw [answer_other hd hj] at hstop
        cases hstop
    · cases he
  · rintro ⟨request, hblank, hd, hstop⟩
    rw [answerLine_of_ne hblank, answer_object hd]
    exact Action.bind_eq_error.2 (.inl hstop)

theorem answerLines_eq_ok : answerLines decode limit lines w = (.ok replies, w') ↔
    Answered decode limit lines w replies w' := by
  induction lines generalizing w replies with
  | nil =>
    constructor
    · intro h
      cases h
      exact .nil _
    · rintro ⟨⟩
      rfl
  | cons line lines ih =>
    simp only [answerLines, Action.bind_eq_ok, answerLine_eq_ok]
    constructor
    · rintro ⟨first, w₁, hfirst, rest, w₂, hrest, he⟩
      cases he
      exact .cons hfirst (ih.1 hrest)
    · rintro (_ | ⟨hfirst, hrest⟩)
      exact ⟨_, _, hfirst, _, _, ih.2 hrest, rfl⟩

/-- Serving ends early with the first line whose request stops the server. -/
theorem answerLines_eq_error {s : Stop} : answerLines decode limit lines w = (.error s, w') ↔
    ∃ before line after replies w₁, lines = before ++ line :: after ∧
      Answered decode limit before w replies w₁ ∧ Stops decode limit line w₁ s w' := by
  induction lines generalizing w with
  | nil =>
    constructor
    · intro h
      cases h
    · rintro ⟨before, line, after, _, _, he, _⟩
      simp at he
  | cons first lines ih =>
    rw [answerLines, Action.bind_eq_error]
    constructor
    · rintro (hstop | ⟨replies, w₁, hfirst, h⟩)
      · exact ⟨[], first, lines, [], w, rfl, .nil w, answerLine_eq_error.1 hstop⟩
      · rcases Action.bind_eq_error.1 h with hrest | ⟨_, _, _, he⟩
        · obtain ⟨before, line, after, more, w₂, rfl, hbefore, hstop⟩ := ih.1 hrest
          have hanswered := Answered.cons (answerLine_eq_ok.1 hfirst) hbefore
          exact ⟨first :: before, line, after, _, w₂, rfl, hanswered, hstop⟩
        · cases he
    · rintro ⟨before, line, after, replies, w₁, he, hbefore, hstop⟩
      cases hbefore with
      | nil =>
        cases he
        exact .inl (answerLine_eq_error.2 hstop)
      | cons hfirst hrest =>
        cases he
        refine .inr ⟨_, _, answerLine_eq_ok.2 hfirst, Action.bind_eq_error.2 (.inl ?_)⟩
        exact ih.2 ⟨_, line, after, _, w₁, rfl, hrest, hstop⟩

/-- However the bytes of a connection are cut into pieces, the replies are the same. There is one, in
order, for each line that ends and is not blank, computed in the world that the lines before it leave;
what stands behind the last end gets none. Only a request that stops the server ends the connection
early. -/
theorem serve_pieces (decode : Decoder) (limit : Nat) (hpieces : ∀ piece ∈ pieces, piece ≠ [])
    (w : World) :
    (∃ lines rest,
      (∀ lines' rest', Lines pieces.flatten lines' rest' ↔ lines' = lines ∧ rest' = rest) ∧
      (∀ replies w', serveWith decode limit [] pieces w = (.ok replies, w') ↔
        Answered decode limit lines w replies w') ∧
      ∀ s w', serveWith decode limit [] pieces w = (.error s, w') ↔
        ∃ before line after replies w₁, lines = before ++ line :: after ∧
          Answered decode limit before w replies w₁ ∧ Stops decode limit line w₁ s w') ∧
    ∀ pieces', (∀ piece ∈ pieces', piece ≠ []) → pieces'.flatten = pieces.flatten →
      serveWith decode limit [] pieces' w = serveWith decode limit [] pieces w := by
  constructor
  · obtain ⟨lines, rest, hlines⟩ := exists_lines pieces.flatten
    have hserve : serveWith decode limit [] pieces = answerLines decode limit lines := by
      rw [serveWith_eq hpieces, hlines.cutLines_eq]
    rw [hserve]
    refine ⟨lines, rest, fun lines' rest' => ⟨fun h => ?_, ?_⟩,
      fun _ _ => answerLines_eq_ok, fun _ _ => answerLines_eq_error⟩
    · have heq := h.cutLines_eq.symm.trans hlines.cutLines_eq
      simpa using heq
    · rintro ⟨rfl, rfl⟩
      exact hlines
  · intro pieces' hpieces' he
    rw [serveWith_eq hpieces', serveWith_eq hpieces, he]

/-- Requests that come byte by byte, so that a character of two bytes is cut in the middle. Among
them are blank lines and a line that is no request, and behind them is a line without an end. -/
theorem serve_pieces_bytewise :
    let bytes := ("\x7b\"cmd\": \"eval\", \"code\": \"(define λ #t)\"\x7d\n \r\n[]\n\n" ++
      "\x7b\"cmd\": \"eval\", \"code\": \"λ\"\x7d\n\x7b\"cmd\"").toUTF8.data.toList
    let w := (Session.start 9 false default).2
    (∀ piece ∈ bytes.map ([·]), piece ≠ []) ∧ (∀ piece ∈ [bytes], piece ≠ []) ∧
      serve 9 [] (bytes.map ([·])) w = serve 9 [] [bytes] w ∧
      (serve 9 [] [bytes] w).1 =
        .ok [.result "()", .invalid "expected an object", .result "true"] := by
  intro bytes w
  have hbytes : ∀ piece ∈ bytes.map ([·]), piece ≠ [] := by simp
  have hwhole : ∀ piece ∈ [bytes], piece ≠ [] := by decide +kernel
  have hsame : (bytes.map ([·])).flatten = [bytes].flatten := by
    rw [← List.flatMap_def, List.flatMap_singleton', List.flatten_singleton]
  exact ⟨hbytes, hwhole, (serve_pieces decode 9 hwhole w).2 _ hbytes hsame, by decide +kernel⟩

end DynamicLisp.Server
