import DynamicLisp.Proofs.Editor.Definitions

/-! Offsets and positions. Each offset in a text has one position, which tells a line, of those between
the `\n`, and a column in it; later offsets have later positions, and every column of every line is the
position of an offset. The name of a definition stands at the position that the index has recorded for
it (`offsets_correspond`). -/
namespace DynamicLisp.Editor

/-! ### Lines between `\n` -/

variable {cs us line : List Char} {k l n o start : Nat} {p q : Position}

theorem length_splitOn_newline (cs : List Char) : (cs.splitOn '\n').length = cs.count '\n' + 1 := by
  induction cs with
  | nil => rfl
  | cons c cs ih =>
    rw [List.splitOn_cons_eq_if_modifyHead, List.count_cons]
    split <;> simp [ih]

/-- Lines as they stand in a text, each with its `\n`. -/
def endLines (ls : List (List Char)) : List Char := ls.flatMap (· ++ ['\n'])

theorem endLines_append (ls ls' : List (List Char)) :
    endLines (ls ++ ls') = endLines ls ++ endLines ls' := List.flatMap_append

theorem endLines_cons (line : List Char) (ls : List (List Char)) :
    endLines (line :: ls) = line ++ '\n' :: endLines ls := by
  simp [endLines]

/-- The lines of a text make up the text, if the last one is to have a `\n` as well. -/
theorem endLines_splitOn (cs : List Char) : endLines (cs.splitOn '\n') = cs ++ ['\n'] := by
  induction cs with
  | nil => rfl
  | cons c cs ih =>
    rw [List.splitOn_cons_eq_if_modifyHead, List.cons_append, ← ih]
    split
    · rename_i hc
      rw [endLines_cons, beq_iff_eq.1 hc, List.nil_append]
    · obtain ⟨first, rest, hsplit⟩ := List.exists_cons_of_ne_nil (List.splitOn_ne_nil '\n' cs)
      rw [hsplit, List.modifyHead_cons, endLines_cons, endLines_cons, List.cons_append]

/-- The number of characters before a line: those of the lines before it. -/
def lineStart (cs : List Char) (k : Nat) : Nat := (endLines ((cs.splitOn '\n').take k)).length

theorem lineStart_succ (h : (cs.splitOn '\n')[k]? = some line) :
    lineStart cs (k + 1) = lineStart cs k + (line.length + 1) := by
  rw [lineStart, List.take_add_one, h, endLines_append, List.length_append, Option.toList_some,
    endLines_cons, List.length_append]
  rfl

theorem lineStart_mono (h : k ≤ l) : lineStart cs k ≤ lineStart cs l := by
  obtain ⟨n, rfl⟩ := Nat.exists_eq_add_of_le h
  rw [lineStart, lineStart, List.take_add, endLines_append, List.length_append]
  exact Nat.le_add_right _ _

theorem lineStart_le (cs : List Char) (k : Nat) : lineStart cs k ≤ cs.length + 1 := by
  have h := congrArg List.length (endLines_splitOn cs)
  rw [← List.take_append_drop k (cs.splitOn '\n'), endLines_append, List.length_append,
    List.length_append] at h
  exact h ▸ Nat.le_add_right _ _

/-- Behind a text that ends with a line, the lines of the next text follow. -/
theorem splitOn_newline_append (h : ∀ c ∈ us.getLast?, c = '\n') (cs : List Char) :
    ∃ ls, ls.length = us.count '\n' ∧ endLines ls = us ∧
      (us ++ cs).splitOn '\n' = ls ++ cs.splitOn '\n' := by
  rcases us.eq_nil_or_concat' with rfl | ⟨us, c, rfl⟩
  · exact ⟨[], rfl, rfl, rfl⟩
  · obtain rfl : c = '\n' := h c (by simp)
    refine ⟨us.splitOn '\n', ?_, endLines_splitOn us, ?_⟩
    · rw [length_splitOn_newline, List.count_append]
      rfl
    · rw [List.append_assoc]
      exact List.splitOn_append_cons_self us cs

/-- The first line starts as the text does, up to a `\n`. -/
theorem exists_head_splitOn (h : '\n' ∉ us) (cs : List Char) :
    ∃ tail rest, (us ++ cs).splitOn '\n' = (us ++ tail) :: rest := by
  by_cases hcs : '\n' ∈ cs
  · obtain ⟨tail, rest, rfl, htail⟩ := List.eq_append_cons_of_mem hcs
    refine ⟨tail, rest.splitOn '\n', ?_⟩
    rw [← List.append_assoc]
    exact List.splitOn_append_cons_self_of_not_mem (by simp [h, htail]) rest
  · exact ⟨cs, [], List.splitOn_eq_singleton (by simp [h, hcs])⟩

/-! ### Positions in a text -/

namespace Position

/-- The number of characters before a position. -/
def offset (cs : List Char) (p : Position) : Nat := lineStart cs p.line + p.column

/-- The position is that of a character in one of the lines, or of the end of a line. -/
def In (cs : List Char) (p : Position) : Prop :=
  ∃ line, (cs.splitOn '\n')[p.line]? = some line ∧ p.column ≤ line.length

/-- The position is on an earlier line, or in an earlier column of the same line. -/
def Before (p q : Position) : Prop := p.line < q.line ∨ p.line = q.line ∧ p.column < q.column

theorem before_trichotomy (p q : Position) : p.Before q ∨ p = q ∨ q.Before p := by
  obtain ⟨line, column⟩ := p
  obtain ⟨line', column'⟩ := q
  simp only [Before, mk.injEq]
  omega

theorem In.offset_lt (h : p.In cs) : p.offset cs < lineStart cs (p.line + 1) := by
  obtain ⟨line, hline, hcolumn⟩ := h
  rw [lineStart_succ hline, offset]
  omega

theorem In.offset_le (h : p.In cs) : p.offset cs ≤ cs.length :=
  Nat.le_of_lt_succ (Nat.lt_of_lt_of_le h.offset_lt (lineStart_le cs _))

theorem Before.offset_lt (h : p.Before q) (hp : p.In cs) : p.offset cs < q.offset cs := by
  rcases h with hline | ⟨hline, hcolumn⟩
  · calc p.offset cs
      _ < lineStart cs (p.line + 1) := hp.offset_lt
      _ ≤ lineStart cs q.line := lineStart_mono hline
      _ ≤ q.offset cs := Nat.le_add_right _ _
  · rw [offset, offset, hline]
    exact Nat.add_lt_add_left hcolumn _

/-- Positions come in the order of their offsets. -/
theorem offset_lt_iff (hp : p.In cs) (hq : q.In cs) : p.offset cs < q.offset cs ↔ p.Before q := by
  constructor
  · intro h
    rcases before_trichotomy p q with hbefore | rfl | hbefore
    · exact hbefore
    · exact (Nat.lt_irrefl _ h).elim
    · exact (Nat.lt_asymm h (hbefore.offset_lt hq)).elim
  · exact fun h => h.offset_lt hp

theorem eq_of_offset_eq (hp : p.In cs) (hq : q.In cs) (h : p.offset cs = q.offset cs) : p = q := by
  rcases before_trichotomy p q with hbefore | heq | hbefore
  · exact (Nat.ne_of_lt (hbefore.offset_lt hp) h).elim
  · exact heq
  · exact (Nat.ne_of_gt (hbefore.offset_lt hq) h).elim

/-- A text that a position locates, and that is all on one line, is found on the line of the position
from its column on. -/
theorem Locates.on_line (h : p.Locates us start cs) (hus : '\n' ∉ us) :
    p.line = (cs.take start).count '\n' ∧ p.offset cs = start ∧
      ∃ line, (cs.splitOn '\n')[p.line]? = some line ∧ p.column ≤ line.length ∧
        us <+: line.drop p.column := by
  obtain ⟨before, line, after, rfl, rfl, hbefore, hline, rfl⟩ := h
  obtain ⟨ls, hlength, hends, hsplit⟩ := splitOn_newline_append hbefore (line ++ us ++ after)
  obtain ⟨tail, rest, hfirst⟩ := exists_head_splitOn (by simp [hline, hus] : '\n' ∉ line ++ us) after
  have hlines : (before ++ line ++ us ++ after).splitOn '\n' = ls ++ (line ++ us ++ tail) :: rest := by
    rw [← hfirst, ← hsplit]
    simp only [List.append_assoc]
  refine ⟨?_, ?_, line ++ us ++ tail, ?_, ?_, ?_⟩
  · rw [List.append_assoc (before ++ line), List.take_left, List.count_append,
      List.count_eq_zero_of_not_mem hline, Nat.add_zero]
  · rw [offset, lineStart, hlines, List.take_left' hlength, hends, List.length_append]
  · rw [hlines, ← hlength]
    simp
  · simp
  · rw [List.append_assoc, List.drop_left]
    exact List.prefix_append us tail

/-- The position of an offset is the one in the text that has so many characters before it. -/
theorem offset_ofOffset (h : o ≤ cs.length) :
    (ofOffset cs o).line = (cs.take o).count '\n' ∧ (ofOffset cs o).offset cs = o ∧
      (ofOffset cs o).In cs := by
  have hlocates := ofOffset_locates (cs.take o) [] (cs.drop o)
  rw [List.nil_append, List.take_append_drop, List.length_take_of_le h] at hlocates
  obtain ⟨hcount, hoffset, line, hline, hcolumn, -⟩ := hlocates.on_line List.not_mem_nil
  exact ⟨hcount, hoffset, line, hline, hcolumn⟩

theorem ofOffset_offset (h : p.In cs) : ofOffset cs (p.offset cs) = p := by
  obtain ⟨-, hoffset, hin⟩ := offset_ofOffset h.offset_le
  exact eq_of_offset_eq hin h hoffset

end Position

/-! ### Tokens where the scanner finds them -/

/-- The token stands where its start says, in a text with so many characters before it. An atom stands
on one line. -/
structure Placed.Found (n : Nat) (cs : List Char) (x : Placed) : Prop where
  stands : ∃ front rest, cs = front ++ (x.token.text ++ rest) ∧ x.start = n + front.length
  on_line : ∀ text, x.token = .atom text → '\n' ∉ text

variable {body rest : List Char} {t : Token} {c : Char} {x : Placed}

theorem Placed.Found.behind (us : List Char) (h : x.Found (n + us.length) cs) :
    x.Found n (us ++ cs) := by
  obtain ⟨front, rest, rfl, hstart⟩ := h.stands
  refine ⟨⟨us ++ front, rest, (List.append_assoc ..).symm, ?_⟩, h.on_line⟩
  rw [hstart, List.length_append, Nat.add_assoc]

theorem found_cons (rest : List Char) (ht : ∀ text, t = .atom text → '\n' ∉ text)
    (h : ∀ x ∈ scanFrom (n + t.text.length) rest, x.Found (n + t.text.length) rest) :
    ∀ x ∈ ⟨t, n⟩ :: scanFrom (n + t.text.length) rest, x.Found n (t.text ++ rest) :=
  List.forall_mem_cons.2 ⟨⟨⟨[], rest, rfl, rfl⟩, ht⟩, fun x hx => (h x hx).behind t.text⟩

theorem closeString_eq (h : closeString cs = some (body, rest)) : cs = body ++ '"' :: rest := by
  fun_induction closeString cs generalizing body rest with
  | case1 | case3 => cases h
  | case2 cs =>
    cases h
    rfl
  | case4 c cs _ ih =>
    obtain ⟨_, hclose, ⟨⟩⟩ := Option.map_eq_some_iff.1 h
    rw [ih hclose]
    rfl
  | case5 c cs _ _ ih =>
    obtain ⟨_, hclose, ⟨⟩⟩ := Option.map_eq_some_iff.1 h
    rw [ih hclose]
    rfl

theorem text_of_single? (h : single? c = some t) : t.text = [c] := by
  unfold single? at h
  split at h <;> cases h <;> rfl

theorem not_newline_of_not_blank (h : ¬ Text.isBlank c = true) : '\n' ≠ c := by
  rintro rfl
  exact h rfl

theorem not_newline_of_isAtomChar (h : isAtomChar c = true) : '\n' ≠ c :=
  not_newline_of_not_blank (by simp [(not_blank_of_isAtomChar h).1])

/-- The scanner finds each token where its text stands, whether or not the text can be read. -/
theorem scanFrom_found (n : Nat) (cs : List Char) : ∀ x ∈ scanFrom n cs, x.Found n cs := by
  -- What the scanner passes over (`behind`) or takes for a token (`found_cons`) moves the start along.
  fun_induction scanFrom n cs with
  | case1 => exact List.forall_mem_nil _
  | case2 n c cs _ ih => exact fun x hx => (ih x hx).behind [c]
  | case3 n cs comment _ ih =>
    intro x hx
    have hcomment : n + (';' :: comment).length = n + 1 + comment.length := by
      rw [List.length_cons]
      omega
    have hfound := Placed.Found.behind (';' :: comment) (hcomment ▸ ih x hx)
    rwa [List.cons_append, List.takeWhile_append_dropWhile] at hfound
  | case4 n cs body rest hclose _ _ ih =>
    have htext : (Token.string body).text ++ rest = '"' :: cs := by
      rw [closeString_eq hclose]
      simp [Token.text]
    have hlength : n + (Token.string body).text.length = n + body.length + 2 := by
      simp [Token.text, Nat.add_assoc]
    rw [← htext, ← hlength]
    rw [← hlength] at ih
    exact found_cons rest (fun _ h => by cases h) ih
  | case5 n cs _ _ _ ih => exact fun x hx => (ih x hx).behind ['"']
  | case6 n c cs hblank _ _ t hsingle ih =>
    have htext := text_of_single? hsingle
    have hline : ∀ text, t = .atom text → '\n' ∉ text := by
      rintro _ rfl
      rw [Token.text] at htext
      simp [htext, not_newline_of_not_blank hblank]
    have hfound := found_cons (n := n) cs hline
    rw [htext] at hfound
    exact hfound ih
  | case7 n c cs hblank _ _ _ text ih =>
    have hline : ∀ word, Token.atom text = .atom word → '\n' ∉ word := by
      rintro _ ⟨⟩
      have hrest : ∀ d ∈ cs.takeWhile isAtomChar, '\n' ≠ d := fun d hd =>
        not_newline_of_isAtomChar (List.all_eq_true.1 List.all_takeWhile d hd)
      rw [List.mem_cons, not_or]
      exact ⟨not_newline_of_not_blank hblank, fun hmem => hrest _ hmem rfl⟩
    have hfound := found_cons (cs.dropWhile isAtomChar) hline ih
    rwa [Token.text, List.cons_append, List.takeWhile_append_dropWhile] at hfound

/-! ### Names of definitions -/

/-- The definition is called after the name, as definitions of its kind are. -/
def Definition.CalledAfter (d : Definition) (name : String) : Prop :=
  match d.kind with
  | .var | .function | .struct => d.name = name
  | .constructor => d.name = "make-" ++ name
  | .predicate => d.name = name ++ "?"
  | .accessor => ∃ field, d.name = name ++ "-" ++ field

/-- What stands between the bracket that opens a form and the name in it, if the form makes definitions
of the kind. -/
inductive DefinitionKind.Introduced : DefinitionKind → List Token → Prop
  | var : Introduced .var [.atom "define".toList]
  | function (b : Bracket) : Introduced .function [.atom "define".toList, .opening b]
  | struct {kind : DefinitionKind} : kind ≠ .var → kind ≠ .function →
    Introduced kind [.atom "define-struct".toList]

/-- The definition is recorded for the token that is the name in a form with these tokens behind its
opening bracket. -/
structure Definition.RecordedIn (cs : List Char) (rest : List Placed) (d : Definition) (name : String)
    (start : Nat) : Prop where
  called : d.CalledAfter name
  position : d.position = Position.ofOffset cs start
  introduced : ∃ front, d.kind.Introduced (front.map (·.token)) ∧
    front ++ [⟨.atom name.toList, start⟩] <+: rest

variable {d : Definition} {j : Nat} {key name : String} {after : List Placed}

theorem exists_name_of_defined (h : d ∈ defined cs after) :
    ∃ start, d.RecordedIn cs (⟨.atom "define".toList, n⟩ :: after) d.name start := by
  unfold defined at h
  split at h
  · rename_i b m text start rest
    obtain rfl := List.mem_singleton.1 h
    refine ⟨start, rfl, rfl, [⟨.atom "define".toList, n⟩, ⟨.opening b, m⟩], .function b, rest, ?_⟩
    simp
  · rename_i text start rest
    obtain rfl := List.mem_singleton.1 h
    refine ⟨start, rfl, rfl, [⟨.atom "define".toList, n⟩], .var, rest, ?_⟩
    simp
  · cases h

theorem calledAfter_of_struct {p : Position} {fields : List String}
    (h : d ∈ structDefinitions name p fields) :
    d.CalledAfter name ∧ d.position = p ∧ d.kind ≠ .var ∧ d.kind ≠ .function := by
  simp only [structDefinitions, List.mem_append, List.mem_cons, List.mem_map, List.not_mem_nil,
    or_false] at h
  rcases h with (rfl | rfl | rfl) | ⟨field, -, rfl⟩
  · exact ⟨rfl, rfl, by simp, by simp⟩
  · exact ⟨rfl, rfl, by simp, by simp⟩
  · exact ⟨rfl, rfl, by simp, by simp⟩
  · exact ⟨⟨field, rfl⟩, rfl, by simp, by simp⟩

theorem exists_name_of_declared {p : Position} {fields : List String}
    (h : declared? cs after = some (name, p, fields)) (hd : d ∈ structDefinitions name p fields) :
    ∃ start, d.RecordedIn cs (⟨.atom "define-struct".toList, n⟩ :: after) name start := by
  obtain ⟨hcalled, hposition, hvar, hfunction⟩ := calledAfter_of_struct hd
  unfold declared? at h
  split at h
  · rename_i text start b m rest
    cases h
    refine ⟨start, hcalled, hposition, [⟨.atom "define-struct".toList, n⟩], .struct hvar hfunction,
      ⟨.opening b, m⟩ :: rest, ?_⟩
    simp
  · cases h

/-- What the scanner takes from a form is recorded for the name in it. -/
theorem exists_name (h : d ∈ formDefinitions cs after) :
    ∃ name start, d.RecordedIn cs after name start := by
  match after, h with
  | ⟨.atom head, n⟩ :: after, h =>
    rw [formDefinitions] at h
    split at h
    · rename_i hdefine
      subst hdefine
      exact ⟨d.name, exists_name_of_defined h⟩
    · split at h
      · rename_i type p fields hstruct
        rw [formStruct?] at hstruct
        split at hstruct
        · rename_i hhead
          subst hhead
          exact ⟨type, exists_name_of_declared hstruct h⟩
        · cases hstruct
      · cases h

theorem exists_name_of_definitionsAt (h : d ∈ definitionsAt cs j) : ∃ b n rest name start,
    ⟨.opening b, n⟩ :: rest <:+ scan cs ∧ d.RecordedIn cs rest name start := by
  obtain ⟨b, n, rest, hdrop, hd⟩ := mem_definitionsAt.1 h
  obtain ⟨name, start, hrecorded⟩ := exists_name hd
  exact ⟨b, n, rest, name, start, hdrop ▸ List.drop_suffix j (scan cs), hrecorded⟩

namespace Definition.RecordedIn

variable {b : Bracket}

theorem mem_scan (h : d.RecordedIn cs after name start) (hafter : ⟨.opening b, n⟩ :: after <:+ scan cs) :
    ⟨.atom name.toList, start⟩ ∈ scan cs := by
  obtain ⟨front, -, hfront⟩ := h.introduced
  have hmem : ⟨.atom name.toList, start⟩ ∈ after := hfront.mem (by simp)
  exact hafter.mem (List.mem_cons_of_mem _ hmem)

/-- The text of the line, from the position of the definition on, begins with the name. -/
theorem on_line (h : d.RecordedIn cs after name start) (hafter : ⟨.opening b, n⟩ :: after <:+ scan cs) :
    ∃ line, (cs.splitOn '\n')[d.position.line]? = some line ∧
      name.toList <+: line.drop d.position.column := by
  have hfound := scanFrom_found 0 cs _ (h.mem_scan hafter)
  obtain ⟨before, rest, hcs, hstart⟩ := hfound.stands
  have hstart : start = before.length := hstart.trans (Nat.zero_add _)
  have hlocates := Position.ofOffset_locates before name.toList rest
  obtain ⟨-, -, line, hline, -, hname⟩ := hlocates.on_line (hfound.on_line _ rfl)
  rw [h.position, hstart, hcs]
  exact ⟨line, hline, hname⟩

end Definition.RecordedIn

/-- The position of an offset tells the line by the `\n` before the offset, and the column by the start
of this line, which the column does not leave. Different offsets have different positions, in the same
order, and every place in every line is the position of its offset. In the index of a text, which need
not be one that can be read, the line of a definition begins, from its column on, with the name in the
form that the definition was recorded for. -/
theorem offsets_correspond (text : String) :
    let cs := text.toList
    let lines := cs.splitOn '\n'
    (∀ o ≤ cs.length, let p := Position.ofOffset cs o
      p.line = (cs.take o).count '\n' ∧ o = lineStart cs p.line + p.column ∧
        ∃ line, lines[p.line]? = some line ∧ p.column ≤ line.length) ∧
    (∀ o ≤ cs.length, ∀ o' ≤ cs.length,
      (Position.ofOffset cs o = Position.ofOffset cs o' → o = o') ∧
        (o < o' ↔ (Position.ofOffset cs o).Before (Position.ofOffset cs o'))) ∧
    (∀ p : Position, p.In cs →
      p.offset cs ≤ cs.length ∧ Position.ofOffset cs (p.offset cs) = p) ∧
    ∀ key d, (Index.ofText text).symbols.find? key = some d → d.name = key ∧
      ∃ b n rest name start, ⟨.opening b, n⟩ :: rest <:+ scan cs ∧
        d.RecordedIn cs rest name start ∧
        ∃ line, lines[d.position.line]? = some line ∧
          name.toList <+: line.drop d.position.column := by
  intro cs lines
  refine ⟨fun o ho => ?_, fun o ho o' ho' => ⟨fun heq => ?_, ?_⟩, fun p hp => ?_, fun key d hentry => ?_⟩
  · obtain ⟨hcount, hoffset, hin⟩ := Position.offset_ofOffset ho
    exact ⟨hcount, hoffset.symm, hin⟩
  · rw [← (Position.offset_ofOffset ho).2.1, heq, (Position.offset_ofOffset ho').2.1]
  · obtain ⟨-, hoffset, hin⟩ := Position.offset_ofOffset ho
    obtain ⟨-, hoffset', hin'⟩ := Position.offset_ofOffset ho'
    rw [← Position.offset_lt_iff hin hin', hoffset, hoffset']
  · exact ⟨hp.offset_le, Position.ofOffset_offset hp⟩
  · obtain ⟨hname, j, hd⟩ := exists_definitionsAt hentry
    obtain ⟨b, n, rest, name, start, hrest, hrecorded⟩ := exists_name_of_definitionsAt hd
    exact ⟨hname, b, n, rest, name, start, hrest, hrecorded, hrecorded.on_line hrest⟩

/-- Two empty lines, and a struct type in a text that ends inside of its form. -/
theorem offsets_correspond_unfinished :
    let text := "\n\n(define-struct P (x"
    let cs := text.toList
    let p : Position := ⟨1, 0⟩
    let d : Definition := ⟨"P-x", .accessor, ⟨2, 15⟩, some "(P-x v)"⟩
    1 ≤ cs.length ∧ 2 ≤ cs.length ∧ (Position.ofOffset cs 1).line = 1 ∧
      (Position.ofOffset cs 1).Before (Position.ofOffset cs 2) ∧
      p.In cs ∧ Position.ofOffset cs (p.offset cs) = p ∧
      (Index.ofText text).symbols.find? "P-x" = some d ∧ ∃ name line, d.CalledAfter name ∧
        (cs.splitOn '\n')[2]? = some line ∧ name.toList <+: line.drop 15 := by
  intro text cs p d
  have hone : 1 ≤ cs.length := by decide
  have htwo : 2 ≤ cs.length := by decide
  have hp : p.In cs := ⟨[], by decide, Nat.le_refl 0⟩
  have hentry : (Index.ofText text).symbols.find? "P-x" = some d := by decide +kernel
  obtain ⟨hlines, horder, hpositions, hnames⟩ := offsets_correspond text
  obtain ⟨-, _, _, _, name, _, -, hrecorded, line, hline, hname⟩ := hnames _ d hentry
  have hbefore := (horder 1 hone 2 htwo).2.1 (by decide)
  exact ⟨hone, htwo, (hlines 1 hone).1.trans (by decide), hbefore, hp, (hpositions p hp).2, hentry,
    name, line, hrecorded.called, hline, hname⟩

end DynamicLisp.Editor
