import DynamicLisp.Editor.Document
import DynamicLisp.Proofs.Editor.Offsets
import Mathlib.Data.List.Infix

/-! The word at a definition. The index counts lines by `\n` only, and ends a name where its token ends;
words are looked for between the ends of lines of all kinds, and end at characters of their own. Where
the two agree, the word at the position of a definition is its name, and what is said about it is the
definition (`word_at_definition`). -/
namespace DynamicLisp

namespace Text

/-- All ends of lines are `\n`, alone or behind `\r`. -/
inductive PlainLines : List Char → Prop
  | nil : PlainLines []
  | newline {cs : List Char} : PlainLines cs → PlainLines ('\n' :: cs)
  | pair {cs : List Char} : PlainLines cs → PlainLines ('\r' :: '\n' :: cs)
  | char {c : Char} {cs : List Char} : isLineEnd c = false → PlainLines cs → PlainLines (c :: cs)

variable {cs us vs line tail : List Char} {c : Char}

/-- Goes through a text, from one end of a line to the next. -/
def hasPlainLines : List Char → Bool
  | [] => true
  | '\r' :: '\n' :: cs => hasPlainLines cs
  | c :: cs => (c == '\n' || !isLineEnd c) && hasPlainLines cs

theorem hasPlainLines_iff : hasPlainLines cs = true ↔ PlainLines cs := by
  constructor
  · intro h
    fun_induction hasPlainLines cs with
    | case1 => exact .nil
    | case2 cs ih => exact .pair (ih h)
    | case3 c cs _ ih =>
      obtain ⟨hc, hcs⟩ := Bool.and_eq_true_iff.1 h
      by_cases hnewline : c = '\n'
      · subst hnewline
        exact .newline (ih hcs)
      · exact .char (by simpa [hnewline] using hc) (ih hcs)
  · intro h
    induction h with
    | nil => rfl
    | newline _ ih => simpa [hasPlainLines] using ih
    | pair _ ih => exact ih
    | @char c cs hc _ ih =>
      have hreturn : c ≠ '\r' := by
        rintro rfl
        cases hc
      rw [hasPlainLines, hc, ih]
      · simp
      · intro _ h
        exact (hreturn h).elim

instance (cs : List Char) : Decidable (PlainLines cs) := decidable_of_iff _ hasPlainLines_iff

theorem getLast?_cons_of_eq (h : us.getLast? = some c) (d : Char) :
    (d :: us).getLast? = some c := by
  rw [List.getLast?_cons, h]
  rfl

/-- Such a text may be cut anywhere but inside of `\r\n`. -/
theorem PlainLines.split (h : PlainLines (us ++ vs))
    (hcut : us.getLast? = some '\r' → vs.head? ≠ some '\n') : PlainLines us ∧ PlainLines vs := by
  generalize hcs : us ++ vs = cs at h
  induction h generalizing us with
  | nil =>
    obtain ⟨rfl, rfl⟩ := List.append_eq_nil_iff.1 hcs
    exact ⟨.nil, .nil⟩
  | newline h ih =>
    rcases List.append_eq_cons_iff.1 hcs with ⟨rfl, rfl⟩ | ⟨us, rfl, rfl⟩
    · exact ⟨.nil, .newline h⟩
    · obtain ⟨hus, hvs⟩ := ih (fun hlast => hcut (getLast?_cons_of_eq hlast _)) rfl
      exact ⟨.newline hus, hvs⟩
  | pair h ih =>
    rcases List.append_eq_cons_iff.1 hcs with ⟨rfl, rfl⟩ | ⟨us, rfl, htail⟩
    · exact ⟨.nil, .pair h⟩
    · rcases List.append_eq_cons_iff.1 htail.symm with ⟨rfl, rfl⟩ | ⟨us, rfl, rfl⟩
      · exact (hcut rfl rfl).elim
      · have hcut' (hlast : us.getLast? = some '\r') :=
          hcut (getLast?_cons_of_eq (getLast?_cons_of_eq hlast _) _)
        obtain ⟨hus, hvs⟩ := ih hcut' rfl
        exact ⟨.pair hus, hvs⟩
  | char hc h ih =>
    rcases List.append_eq_cons_iff.1 hcs with ⟨rfl, rfl⟩ | ⟨us, rfl, rfl⟩
    · exact ⟨.nil, .char hc h⟩
    · obtain ⟨hus, hvs⟩ := ih (fun hlast => hcut (getLast?_cons_of_eq hlast _)) rfl
      exact ⟨.char hc hus, hvs⟩

/-- On one line there is no end of a line. -/
theorem PlainLines.no_lineEnd (h : PlainLines cs) (hcs : '\n' ∉ cs) :
    ∀ c ∈ cs, isLineEnd c = false := by
  induction h with
  | nil => exact List.forall_mem_nil _
  | newline _ _ => exact (hcs List.mem_cons_self).elim
  | pair _ _ => exact (hcs (List.mem_cons_of_mem _ List.mem_cons_self)).elim
  | char hc _ ih =>
    have hrest : '\n' ∉ _ := fun hmem => hcs (List.mem_cons_of_mem _ hmem)
    exact List.forall_mem_cons.2 ⟨hc, ih hrest⟩

theorem lines_cons (hc : isLineEnd c = false) (cs : List Char) :
    lines (c :: cs) = consPart c (lines cs) := by
  have hreturn : c ≠ '\r' := by
    rintro rfl
    cases hc
  rw [lines]
  · simp [hc]
  · intro _ h
    exact (hreturn h).elim

/-- The first line starts as the text does. -/
theorem exists_first_line (c : Char) (cs : List Char) :
    ∃ first rest, lines (c :: cs) = (c :: first) :: rest := by
  unfold lines
  split
  · contradiction
  · rename_i h
    cases h
    exact ⟨['\n'], _, rfl⟩
  · rename_i h
    cases h
    split
    · exact ⟨[], _, rfl⟩
    · cases lines cs with
      | nil => exact ⟨[], [], rfl⟩
      | cons first rest => exact ⟨first, rest, rfl⟩

/-- The lines of a text that ends with a line are counted by `\n`, and the next line follows them. -/
theorem PlainLines.exists_lines (h : PlainLines us) (hlast : ∀ c ∈ us.getLast?, c = '\n')
    (vs : List Char) : ∃ ls, ls.length = us.count '\n' ∧ lines (us ++ vs) = ls ++ lines vs := by
  induction h with
  | nil => exact ⟨[], rfl, rfl⟩
  | @newline us _ ih =>
    have hrest : ∀ c ∈ us.getLast?, c = '\n' := fun c hc => hlast c (getLast?_cons_of_eq hc _)
    obtain ⟨ls, hlength, hlines⟩ := ih hrest
    refine ⟨['\n'] :: ls, ?_, ?_⟩
    · simp [hlength]
    · have hfirst : lines ('\n' :: (us ++ vs)) = ['\n'] :: lines (us ++ vs) := by simp [lines, isLineEnd]
      rw [List.cons_append, hfirst, hlines, List.cons_append]
  | @pair us _ ih =>
    have hrest : ∀ c ∈ us.getLast?, c = '\n' := fun c hc =>
      hlast c (getLast?_cons_of_eq (getLast?_cons_of_eq hc _) _)
    obtain ⟨ls, hlength, hlines⟩ := ih hrest
    refine ⟨['\r', '\n'] :: ls, ?_, ?_⟩
    · simp [hlength]
    · rw [List.cons_append, List.cons_append, lines, hlines, List.cons_append]
  | @char c us hc _ ih =>
    have hrest : ∀ c ∈ us.getLast?, c = '\n' := fun c hc => hlast c (getLast?_cons_of_eq hc _)
    have hnewline : c ≠ '\n' := by
      rintro rfl
      cases hc
    obtain ⟨ls, hlength, hlines⟩ := ih hrest
    -- A text that ends with a line and does not begin with its end goes on behind this character.
    have hcount : 0 < us.count '\n' := by
      rw [List.count_pos_iff]
      cases hus : us.getLast? with
      | none =>
        obtain rfl := List.getLast?_eq_none_iff.1 hus
        exact (hnewline (hlast c rfl)).elim
      | some d =>
        obtain rfl := hrest d hus
        exact List.mem_of_getLast? hus
    obtain ⟨l, ls, rfl⟩ := List.exists_cons_of_length_pos (hlength ▸ hcount)
    refine ⟨(c :: l) :: ls, ?_, ?_⟩
    · rw [List.count_cons_of_ne hnewline, ← hlength]
      rfl
    · rw [List.cons_append, lines_cons hc, hlines]
      rfl

/-- Each `\n` ends a line, and so do other characters if the text has not just plain lines. -/
theorem exists_ended_lines (us : List Char) (hcut : us.getLast? = some '\r' → vs.head? ≠ some '\n') :
    ∃ ls, ls.flatten <+: us ∧ ls <+: lines (us ++ vs) ∧ us.count '\n' ≤ ls.length ∧
      (us.count '\n' = ls.length → PlainLines us) := by
  fun_induction lines us with
  | case1 => exact ⟨[], List.nil_prefix, List.nil_prefix, Nat.le_refl 0, fun _ => .nil⟩
  | case2 us ih =>
    obtain ⟨ls, hls, hlines, hcount, hplain⟩ := ih fun hlast =>
      hcut (getLast?_cons_of_eq (getLast?_cons_of_eq hlast _) _)
    refine ⟨['\r', '\n'] :: ls, ?_, ?_, ?_, fun heq => .pair (hplain ?_)⟩
    · simpa using hls
    · simpa [lines] using hlines
    · simpa using hcount
    · simpa using heq
  | case3 c us hpair hc ih =>
    obtain ⟨ls, hls, hlines, hcount, hplain⟩ := ih fun hlast => hcut (getLast?_cons_of_eq hlast _)
    have hfirst : lines (c :: (us ++ vs)) = [c] :: lines (us ++ vs) := by
      rw [lines]
      · simp [hc]
      · rintro rest rfl h
        rcases us with _ | ⟨d, us⟩
        · have hhead : vs.head? = some '\n' := congrArg List.head? h
          exact hcut rfl hhead
        · exact hpair us rfl (by simp_all)
    refine ⟨[c] :: ls, ?_, ?_, ?_, fun heq => ?_⟩
    · simpa using hls
    · simpa [hfirst] using hlines
    · have hle : (c :: us).count '\n' ≤ us.count '\n' + 1 := by
        rw [List.count_cons]
        split <;> omega
      exact Nat.le_trans hle (Nat.succ_le_succ hcount)
    · by_cases hnewline : c = '\n'
      · subst hnewline
        exact .newline (hplain (by simpa using heq))
      · rw [List.count_cons_of_ne hnewline, List.length_cons] at heq
        omega
  | case4 c us _ hc ih =>
    obtain ⟨ls, hls, hlines, hcount, hplain⟩ := ih fun hlast => hcut (getLast?_cons_of_eq hlast _)
    have hc : isLineEnd c = false := by simpa using hc
    have hnewline : c ≠ '\n' := by
      rintro rfl
      cases hc
    rw [List.count_cons_of_ne hnewline, List.cons_append, lines_cons hc]
    cases ls with
    | nil => exact ⟨[], List.nil_prefix, List.nil_prefix, hcount, fun heq => .char hc (hplain heq)⟩
    | cons l ls =>
      obtain ⟨rest, hrest⟩ := hlines
      refine ⟨(c :: l) :: ls, ?_, ?_, hcount, fun heq => .char hc (hplain heq)⟩
      · simpa using hls
      · exact ⟨rest, by rw [← hrest]; rfl⟩

/-- What stands at the start of a line is the start of the line. -/
theorem exists_line (hline : ∀ c ∈ line, isLineEnd c = false) (hne : line ++ cs ≠ []) :
    ∃ tail rest, lines (line ++ cs) = (line ++ tail) :: rest ∧ tail.head? = cs.head? := by
  induction line with
  | nil =>
    obtain ⟨c, cs, rfl⟩ := List.exists_cons_of_ne_nil hne
    obtain ⟨first, rest, hlines⟩ := exists_first_line c cs
    exact ⟨c :: first, rest, hlines, rfl⟩
  | cons c line ih =>
    obtain ⟨hc, hline⟩ := List.forall_mem_cons.1 hline
    rw [List.cons_append, lines_cons hc]
    by_cases hrest : line ++ cs = []
    · obtain ⟨rfl, rfl⟩ := List.append_eq_nil_iff.1 hrest
      exact ⟨[], [], rfl, rfl⟩
    · obtain ⟨tail, rest, hlines, htail⟩ := ih hline hrest
      rw [hlines]
      exact ⟨tail, rest, rfl, htail⟩

end Text

namespace Editor

open Text (PlainLines)

/-! ### The word around a name -/

variable {cs before after line tail name : List Char} {c : Char} {key : String} {d : Definition}
  {j : Nat} {rest : List Placed}

theorem isWordBreak_of_isAtomChar (h : isAtomChar c = true) : isWordBreak c = false := by
  obtain ⟨hblank, hmark⟩ := not_blank_of_isAtomChar h
  have hspaces : ∀ b, Text.isBlank b = true → c ≠ b := by
    rintro b hb rfl
    exact Bool.noConfusion (hblank.symm.trans hb)
  have hspace := hspaces ' ' rfl
  have htab := hspaces '\t' rfl
  have hnewline := hspaces '\n' rfl
  have hreturn := hspaces '\r' rfl
  simp_all [isWordBreak]

theorem isLineEnd_of_isAtomChar (h : isAtomChar c = true) : Text.isLineEnd c = false := by
  have hblank := (not_blank_of_isAtomChar h).1
  simp only [Text.isBlank, Text.isLineEnd, Bool.or_eq_false_iff, Bool.and_eq_false_imp,
    decide_eq_true_eq, decide_eq_false_iff_not, beq_eq_false_iff_ne] at hblank ⊢
  omega

theorem takeWhile_eq_nil : cs.takeWhile isWordChar = [] ↔ ∀ c ∈ cs.head?, isWordBreak c = true := by
  cases cs with
  | nil => simp
  | cons c cs => cases hc : isWordBreak c <;> simp [isWordChar, hc]

/-- The word where a name starts is the name itself only if it has a break on both sides. -/
theorem wordIn_eq_name (hne : name ≠ []) (hname : ∀ c ∈ name, isWordBreak c = false) :
    wordIn (line ++ (name ++ tail)) line.length = some name ↔
      (∀ c ∈ line.getLast?, isWordBreak c = true) ∧ ∀ c ∈ tail.head?, isWordBreak c = true := by
  have hchars : ∀ c ∈ name, isWordChar c = true := fun c hc => by simp [isWordChar, hname c hc]
  have hword : wordIn (line ++ (name ++ tail)) line.length =
      some ((line.reverse.takeWhile isWordChar).reverse ++ (name ++ tail.takeWhile isWordChar)) := by
    rw [wordIn, List.take_left, List.drop_left, List.takeWhile_append_of_pos hchars]
    exact if_neg (by simp [hne])
  have hname : ∀ us vs : List Char, us ++ (name ++ vs) = name ↔ us = [] ∧ vs = [] := by
    intro us vs
    constructor
    · intro h
      have hlength := congrArg List.length h
      simp only [List.length_append] at hlength
      exact ⟨List.eq_nil_of_length_eq_zero (by omega), List.eq_nil_of_length_eq_zero (by omega)⟩
    · rintro ⟨rfl, rfl⟩
      exact List.append_nil name
  rw [hword, Option.some_inj, hname, List.reverse_eq_nil_iff, takeWhile_eq_nil, takeWhile_eq_nil,
    List.head?_reverse]

theorem head?_atom_ne (hstands : (Token.atom name).Stands after) :
    (name ++ after).head? ≠ some '\n' := by
  obtain ⟨hne, hname, -⟩ := hstands
  obtain ⟨c, name, rfl⟩ := List.exists_cons_of_ne_nil hne
  rintro ⟨⟩
  cases hname '\n' List.mem_cons_self

/-- Where the lines before a name end with `\n`, the word at its start is found in its line. -/
theorem wordAt_eq_name (hstands : (Token.atom name).Stands after) (hlines : PlainLines before) :
    wordAt (before ++ (name ++ after)) (Position.ofOffset (before ++ (name ++ after)) before.length) =
        some name ↔
      (∀ c ∈ before.getLast?, isWordBreak c = true) ∧ ∀ c ∈ after.head?, isWordBreak c = true := by
  obtain ⟨hne, hname, -⟩ := hstands
  obtain ⟨front, line, rfl, hfront, hline, hp⟩ := exists_last_line before
  have hcut : front.getLast? = some '\r' → line.head? ≠ some '\n' := fun hlast => by
    cases hfront _ hlast
  obtain ⟨hplain, hrest⟩ := hlines.split hcut
  have hends : ∀ c ∈ line ++ name, Text.isLineEnd c = false := by
    intro c hc
    rcases List.mem_append.1 hc with hc | hc
    · exact hrest.no_lineEnd hline c hc
    · exact isLineEnd_of_isAtomChar (hname c hc)
  obtain ⟨ls, hlength, hsplit⟩ := hplain.exists_lines hfront (line ++ (name ++ after))
  have hsome : line ++ name ++ after ≠ [] := by simp [hne]
  obtain ⟨tail, rest, hfirst, htail⟩ := Text.exists_line hends hsome
  have hposition : Position.ofOffset (front ++ line ++ (name ++ after)) (front ++ line).length =
      ⟨ls.length, line.length⟩ := by
    rw [Position.ofOffset, List.take_left, hp, hlength]
  have hlineAt : lineAt? (front ++ line ++ (name ++ after)) ls.length =
      some (line ++ (name ++ tail)) := by
    rw [lineAt?, List.append_assoc, hsplit, ← List.append_assoc line, hfirst]
    simp
  have hbreak : (∀ c ∈ (front ++ line).getLast?, isWordBreak c = true) ↔
      ∀ c ∈ line.getLast?, isWordBreak c = true := by
    by_cases hempty : line = []
    · subst hempty
      have hnewline : ∀ c ∈ front.getLast?, isWordBreak c = true := fun c hc => by
        rw [hfront c hc]
        rfl
      simpa using hnewline
    · rw [List.getLast?_append_of_ne_nil front hempty]
  rw [hposition, wordAt, hlineAt, Option.bind_some,
    wordIn_eq_name hne fun c hc => isWordBreak_of_isAtomChar (hname c hc), htail, hbreak]

/-- If other characters end lines before a place, too few lines are counted to come to that of the
place. -/
theorem counted_lines_prefix (hplain : ¬ PlainLines before)
    (hcut : before.getLast? = some '\r' → cs.head? ≠ some '\n') :
    ((Text.lines (before ++ cs)).take
      ((Position.ofOffset (before ++ cs) before.length).line + 1)).flatten <+: before := by
  obtain ⟨ls, hls, ⟨rest, hlines⟩, hcount, hequal⟩ := Text.exists_ended_lines before hcut
  have hlt : before.count '\n' + 1 ≤ ls.length :=
    Nat.lt_of_le_of_ne hcount fun heq => hplain (hequal heq)
  have hoffset : before.length ≤ (before ++ cs).length := by simp
  rw [(Position.offset_ofOffset hoffset).1, List.take_left, ← hlines,
    List.take_append_of_le_length hlt]
  exact (List.IsPrefix.flatten (List.take_prefix _ ls)).trans hls

/-! ### The names in the index -/

/-- The definition is that of a variable or a function, and not part of a struct type. -/
def Definition.ByDefine (d : Definition) : Prop := d.kind = .var ∨ d.kind = .function

theorem Definition.ByDefine.eq_name (hkind : d.ByDefine) {name : String} (h : d.CalledAfter name) :
    d.name = name := by
  rcases hkind with hkind | hkind
  · rwa [Definition.CalledAfter, hkind] at h
  · rwa [Definition.CalledAfter, hkind] at h

/-- The name of a variable or a function stands in the text, at the position of the definition. -/
theorem exists_name_of_byDefine (h : d ∈ definitionsAt cs j) (hkind : d.ByDefine) :
    ∃ start, ⟨.atom d.name.toList, start⟩ ∈ scan cs ∧
      d.position = Position.ofOffset cs start := by
  obtain ⟨b, n, rest, name, start, hrest, hrecorded⟩ := exists_name_of_definitionsAt h
  obtain rfl := hkind.eq_name hrecorded.called
  exact ⟨start, hrecorded.mem_scan hrest, hrecorded.position⟩

/-- The reader finds the name of a variable or a function of the index at its position. -/
theorem exists_name_of_read {text : String} {ds : List Datum} (hread : read text = .ok ds)
    (hentry : (Index.ofText text).symbols.find? key = some d) (hkind : d.ByDefine) :
    ∃ before after, text.toList = before ++ (key.toList ++ after) ∧
      d.position = Position.ofOffset text.toList before.length ∧
      (Token.atom key.toList).Stands after ∧ Detached before (key.toList ++ after) := by
  obtain ⟨rfl, j, hd⟩ := exists_definitionsAt hentry
  obtain ⟨start, hmem, hposition⟩ := exists_name_of_byDefine hd hkind
  have hplace : Placed.place ⟨.atom d.name.toList, start⟩ ∈ Cursor.places text.toList := by
    rw [← (places_of_read hread).1]
    exact List.mem_map_of_mem hmem
  obtain ⟨before, after, htext, hstart, -, hstands, hdetached⟩ :=
    (lexes_ofChars text.toList).stands_at [] _ hplace
  rw [List.nil_append] at htext
  have hstart : start = before.length := hstart
  refine ⟨before, after, htext, ?_, hstands, hdetached fun _ _ _ _ hb => ?_⟩
  · rw [hposition, hstart]
  · cases hb

/-! ### What is said at a definition -/

/-- What is said about a definition. -/
def Definition.description (d : Definition) : String :=
  (match d.detail with
    | none | some "" => ""
    | some shape => shape ++ " ") ++
  d.kind.noun ++ " " ++ d.name ++ " (defined at " ++ Nat.repr (d.position.line + 1) ++ ":" ++
  Nat.repr (d.position.column + 1) ++ ")"

theorem describe_entry {x : Index} (h : x.symbols.find? d.name = some d) :
    describe x d.name = some ((signatures.lookup d.name).getD d.description) := by
  unfold describe
  cases signatures.lookup d.name with
  | some s => rfl
  | none =>
    rw [h]
    rfl

/-- A character that no atom holds ends a word, if blanks do and it starts no comment. -/
theorem isWordBreak_iff (h : isAtomChar c = false)
    (hblank : Text.isBlank c = true → isWordBreak c = true) : isWordBreak c = true ↔ c ≠ ';' := by
  constructor
  · rintro hbreak rfl
    cases hbreak
  · intro hcomment
    cases hc : Text.isBlank c with
    | true => exact hblank hc
    | false =>
      have hmark : isDelimiter c = true := by simpa [isAtomChar, hc] using h
      simp only [isDelimiter, isWordBreak, Bool.or_eq_true, beq_iff_eq] at hmark ⊢
      tauto

/-- The reader lets no atom and no comment end before a name, but a comment may start behind it. -/
theorem breaks_iff (hstands : (Token.atom name).Stands after)
    (hdetached : Detached before (name ++ after))
    (hblanks : ∀ c ∈ before ++ (name ++ after), Text.isBlank c = true → isWordBreak c = true) :
    ((∀ c ∈ before.getLast?, isWordBreak c = true) ∧ ∀ c ∈ after.head?, isWordBreak c = true) ↔
      after.head? ≠ some ';' := by
  obtain ⟨hne, hname, hends⟩ := hstands
  obtain ⟨c, name, rfl⟩ := List.exists_cons_of_ne_nil hne
  have hbefore : ∀ b ∈ before.getLast?, isWordBreak b = true := by
    intro b hb
    obtain ⟨hatom, hcomment⟩ := hdetached c rfl (hname c List.mem_cons_self) b hb
    have hmem := List.mem_append_left (c :: name ++ after) (List.mem_of_getLast? hb)
    exact (isWordBreak_iff hatom (hblanks b hmem)).2 hcomment
  have hbreak : ∀ a ∈ after.head?, (isWordBreak a = true ↔ a ≠ ';') := by
    intro a ha
    have hmem := List.mem_append_right (c :: name) (List.mem_of_head? ha)
    exact isWordBreak_iff (hends a ha) (hblanks a (List.mem_append_right before hmem))
  rw [and_iff_right hbefore]
  constructor
  · intro h hcomment
    exact (hbreak _ hcomment).1 (h _ hcomment) rfl
  · intro h a ha
    refine (hbreak a ha).2 ?_
    rintro rfl
    exact h ha

/-- A variable or a function in the index of a text that can be read has its name at its position. If
the lines before it end with `\n`, the word there is its name just if there are breaks of words on both
sides; if other characters end lines as well, the word is looked for in a line that ends before the
name. Where all lines end with `\n` and no blank is part of a word, the word is the name just if no
comment starts directly behind it. Then an editor says about the word what is known of the operator of
this name that is always there, or else of the definition. -/
theorem word_at_definition {text : String} {ds : List Datum} (hread : read text = .ok ds)
    (hentry : (Index.ofText text).symbols.find? key = some d) (hkind : d.ByDefine) :
    let cs := text.toList
    let word := wordAt cs d.position
    d.name = key ∧ ∃ before after, cs = before ++ (key.toList ++ after) ∧
      d.position = Position.ofOffset cs before.length ∧
      (PlainLines before → (word = some key.toList ↔
        (∀ c ∈ before.getLast?, isWordBreak c = true) ∧
          ∀ c ∈ after.head?, isWordBreak c = true)) ∧
      (¬ PlainLines before → ((Text.lines cs).take (d.position.line + 1)).flatten <+: before) ∧
      (PlainLines cs → (∀ c ∈ cs, Text.isBlank c = true → isWordBreak c = true) →
        (word = some key.toList ↔ after.head? ≠ some ';')) ∧
      (word = some key.toList → (Document.ofText text).hover d.position =
        some ((signatures.lookup key).getD d.description)) := by
  intro cs word
  obtain ⟨rfl, -⟩ := exists_definitionsAt hentry
  obtain ⟨before, after, htext, hposition, hstands, hdetached⟩ :=
    exists_name_of_read hread hentry hkind
  have hword (hlines : PlainLines before) : word = some d.name.toList ↔
      (∀ c ∈ before.getLast?, isWordBreak c = true) ∧ ∀ c ∈ after.head?, isWordBreak c = true := by
    have h := wordAt_eq_name hstands hlines
    rwa [← htext, ← hposition] at h
  have hcut : before.getLast? = some '\r' → (d.name.toList ++ after).head? ≠ some '\n' :=
    fun _ => head?_atom_ne hstands
  have hcs : cs = before ++ (d.name.toList ++ after) := htext
  refine ⟨rfl, before, after, htext, hposition, hword, fun hplain => ?_, fun hlines hblanks => ?_,
    fun h => ?_⟩
  · rw [hposition, hcs, htext]
    exact counted_lines_prefix hplain hcut
  · rw [hcs] at hlines hblanks
    rw [hword (hlines.split hcut).1, breaks_iff hstands hdetached hblanks]
  · have hhover : (Document.ofText text).hover d.position =
        word.bind fun w => describe (Index.ofText text) (String.ofList w) := rfl
    rw [hhover, h, Option.bind_some, String.ofList_toList, describe_entry hentry]

/-- A function whose name stands on a line behind a comment, before the end of a line `\r\n`. -/
theorem word_at_definition_behind_comment :
    let text := "(define ; its head\r\n (f x)\r\n x)"
    let d : Definition := ⟨"f", .function, ⟨1, 2⟩, some "(f x)"⟩
    let ds : List Datum := [.list [.name "define", .list [.name "f", .name "x"], .name "x"]]
    read text = .ok ds ∧ (Index.ofText text).symbols.find? "f" = some d ∧ d.ByDefine ∧
      PlainLines text.toList ∧
      (∀ c ∈ text.toList, Text.isBlank c = true → isWordBreak c = true) ∧
      wordAt text.toList ⟨1, 2⟩ = some ['f'] ∧
      (Document.ofText text).hover ⟨1, 2⟩ = some "(f x) function f (defined at 2:3)" := by
  intro text d ds
  have htokens : Cursor.ofText text = ⟨[.opening .round, .atom "define".toList, .opening .round,
    .atom ['f'], .atom ['x'], .closing .round, .atom ['x'], .closing .round], none⟩ := by
      decide +kernel
  have hread : read text = .ok ds := by
    rw [read_eq_ok, ofCursor_eq_iff, htokens]
    have hdefine : Expression [.atom "define".toList] (.name "define") := .atom rfl
    have hf : Expression [.atom ['f']] (.name "f") := .atom rfl
    have hx : Expression [.atom ['x']] (.name "x") := .atom rfl
    have hform := Expression.list .round (.cons hdefine (.cons
      (.list .round (.cons hf (.cons hx .nil))) (.cons hx .nil)))
    exact ⟨rfl, .cons hform .nil⟩
  have hentry : (Index.ofText text).symbols.find? "f" = some d := by decide +kernel
  have hkind : d.ByDefine := .inr rfl
  have hlines : PlainLines text.toList := by decide +kernel
  have hblanks : ∀ c ∈ text.toList, Text.isBlank c = true → isWordBreak c = true := by
    have hall : text.toList.all (fun c => !Text.isBlank c || isWordBreak c) = true := by
      decide +kernel
    intro c hc hblank
    simpa [hblank] using List.all_eq_true.1 hall c hc
  obtain ⟨-, before, after, htext, hposition, -, -, hword, hhover⟩ :=
    word_at_definition hread hentry hkind
  have hoffset : ∀ n ≤ text.toList.length, d.position = Position.ofOffset text.toList n → n = 22 := by
    decide +kernel
  have hlength : before.length = 22 := by
    refine hoffset _ ?_ hposition
    rw [htext, List.length_append]
    exact Nat.le_add_right _ _
  have hafter : after.head? ≠ some ';' := by
    have hdrop : "f".toList ++ after = text.toList.drop 22 := by
      rw [htext, ← hlength, List.drop_left]
    have hrest : after = (text.toList.drop 22).drop 1 := hdrop ▸ rfl
    rw [hrest]
    decide +kernel
  have hfound := (hword hlines hblanks).2 hafter
  have hsaid : (signatures.lookup "f").getD d.description = "(f x) function f (defined at 2:3)" := by
    decide +kernel
  exact ⟨hread, hentry, hkind, hlines, hblanks, hfound, (hhover hfound).trans (congrArg some hsaid)⟩

/-- A comment that starts directly behind a name is taken for a part of the word. -/
theorem word_before_comment :
    let text := "(define x;c\n y)"
    let ds : List Datum := [.list [.name "define", .name "x", .name "y"]]
    read text = .ok ds ∧ (Index.ofText text).symbols.find? "x" = some ⟨"x", .var, ⟨0, 8⟩, none⟩ ∧
      wordAt text.toList ⟨0, 8⟩ = some ['x', ';', 'c'] ∧
      (Document.ofText text).hover ⟨0, 8⟩ = none := by
  intro text ds
  have htokens : Cursor.ofText text = ⟨[.opening .round, .atom "define".toList, .atom ['x'],
    .atom ['y'], .closing .round], none⟩ := by decide +kernel
  have hread : read text = .ok ds := by
    rw [read_eq_ok, ofCursor_eq_iff, htokens]
    have hform : Expression [.opening .round, .atom "define".toList, .atom ['x'], .atom ['y'],
        .closing .round] (.list [.name "define", .name "x", .name "y"]) :=
      .list .round (.cons (.atom rfl) (.cons (.atom rfl) (.cons (.atom rfl) .nil)))
    exact ⟨rfl, .cons hform .nil⟩
  exact ⟨hread, by decide +kernel, by decide +kernel, by decide +kernel⟩

end Editor

end DynamicLisp
