import DynamicLisp.Editor.Position
import DynamicLisp.Proofs.Reader.Lexical
import Mathlib.Data.List.Basic
import Mathlib.Data.List.Induction

/-! Where words begin and end. The word at a column is the one greatest piece of its line that touches
the column and holds no break. It is found by going back and on from the column, without a look at
anything outside of the line, and it is the same at each of its columns (`word_maximal`). -/
namespace DynamicLisp.Editor

/-- Goes back from a column, as long as the character before it is no break. If there is no such
character in the line, there is no answer. -/
def wordStart? (cs : List Char) : Nat → Option Nat
  | 0 => some 0
  | column + 1 => do
    let c ← cs[column]?
    if isWordBreak c then some (column + 1) else wordStart? cs column

/-- Goes on from a column that is not at the end of the line, as long as the character behind it is no
break. -/
def wordStop? (cs : List Char) (column : Nat) : Option Nat :=
  if column < cs.length then do
    let c ← cs[column]?
    if isWordBreak c then some column else wordStop? cs (column + 1)
  else some column
termination_by cs.length - column

/-- The columns between which the word at a column stands. Behind the line it is looked for at the end
of the line. -/
def wordSpan? (line : List Char) (column : Nat) : Option (Nat × Nat) := do
  let start ← wordStart? line (min column line.length)
  let stop ← wordStop? line (min column line.length)
  some (start, stop)

/-- The piece of a line from one column up to another touches a column and holds no break. -/
structure Unbroken (cs : List Char) (column start stop : Nat) : Prop where
  bounds : start ≤ column ∧ column ≤ stop ∧ stop ≤ cs.length
  plain : ∀ i c, start ≤ i → i < stop → cs[i]? = some c → isWordBreak c = false

/-- The piece holds no break, and it is part of no other such piece that touches the column. -/
def MaximalUnbroken (line : List Char) (column start stop : Nat) : Prop :=
  Unbroken line column start stop ∧
    ∀ i j, Unbroken line column i j → i ≤ start → stop ≤ j → i = start ∧ j = stop

/-- A line is made up of these, the second of which is a word, or nothing between two breaks. -/
structure WordBetween (front word rest : List Char) : Prop where
  plain : ∀ c ∈ word, isWordBreak c = false
  left : ∀ c ∈ front.getLast?, isWordBreak c = true
  right : ∀ c ∈ rest.head?, isWordBreak c = true

variable {cs line front us vs word rest : List Char} {c : Char} {column start stop : Nat}

/-! ### Going back and on -/

theorem wordStart?_succ (h : cs[column]? = some c) : wordStart? cs (column + 1) =
    if isWordBreak c then some (column + 1) else wordStart? cs column := by
  rw [wordStart?, h]
  rfl

theorem wordStop?_succ (h : cs[column]? = some c) : wordStop? cs column =
    if isWordBreak c then some column else wordStop? cs (column + 1) := by
  obtain ⟨hlt, -⟩ := List.getElem?_eq_some_iff.1 h
  rw [wordStop?, if_pos hlt, h]
  rfl

theorem wordStop?_length (line : List Char) : wordStop? line line.length = some line.length := by
  rw [wordStop?, if_neg (Nat.lt_irrefl _)]

theorem getElem?_behind (front rest : List Char) (c : Char) :
    (front ++ c :: rest)[front.length]? = some c := by simp

/-- The way back from a place in a word ends at its start. -/
theorem wordStart?_eq (hus : ∀ c ∈ us, isWordBreak c = false)
    (hleft : ∀ c ∈ front.getLast?, isWordBreak c = true) (rest : List Char) :
    wordStart? (front ++ us ++ rest) (front ++ us).length = some front.length := by
  -- The way back goes through the part of the word before the column from its end.
  induction us using List.reverseRecOn generalizing rest with
  | nil =>
    rw [List.append_nil]
    rcases front.eq_nil_or_concat' with rfl | ⟨front, c, rfl⟩
    · rfl
    · have hbreak : isWordBreak c = true := hleft c (by simp)
      rw [List.append_assoc, List.length_append, List.singleton_append, List.length_singleton,
        wordStart?_succ (getElem?_behind front rest c), if_pos hbreak]
  | append_singleton us c ih =>
    have hplain : isWordBreak c = false := hus c (by simp)
    have hrest := ih (fun d hd => hus d (List.mem_append_left _ hd)) (c :: rest)
    rw [← List.append_assoc, List.append_assoc _ [c] rest, List.length_append, List.singleton_append,
      List.length_singleton, wordStart?_succ (getElem?_behind (front ++ us) rest c), hplain]
    exact hrest

/-- The way on from a place in a word ends at its end. -/
theorem wordStop?_eq (hvs : ∀ c ∈ vs, isWordBreak c = false)
    (hright : ∀ c ∈ rest.head?, isWordBreak c = true) (front : List Char) :
    wordStop? (front ++ (vs ++ rest)) front.length = some (front ++ vs).length := by
  induction vs generalizing front with
  | nil =>
    rw [List.nil_append, List.append_nil]
    cases rest with
    | nil =>
      rw [List.append_nil]
      exact wordStop?_length front
    | cons c rest =>
      have hbreak : isWordBreak c = true := hright c rfl
      rw [wordStop?_succ (getElem?_behind front rest c), if_pos hbreak]
  | cons c vs ih =>
    obtain ⟨hplain, hvs⟩ := List.forall_mem_cons.1 hvs
    have hrest := ih hvs (front ++ [c])
    rw [List.cons_append, wordStop?_succ (getElem?_behind front (vs ++ rest) c), hplain]
    simpa using hrest

/-! ### The word between its breaks -/

theorem isWordChar_iff : isWordChar c = true ↔ isWordBreak c = false := by simp [isWordChar]

theorem isWordChar_eq_false_iff : isWordChar c = false ↔ isWordBreak c = true := by simp [isWordChar]

theorem takeWhile_word (hus : ∀ c ∈ us, isWordBreak c = false)
    (hrest : ∀ c ∈ rest.head?, isWordBreak c = true) : (us ++ rest).takeWhile isWordChar = us :=
  (span_append (fun c hc => isWordChar_iff.2 (hus c hc))
    fun c hc => isWordChar_eq_false_iff.2 (hrest c hc)).1

/-- A text begins with characters of a word, up to a break or to its end. -/
theorem exists_plain (cs : List Char) : ∃ us rest, cs = us ++ rest ∧
    (∀ c ∈ us, isWordBreak c = false) ∧ ∀ c ∈ rest.head?, isWordBreak c = true :=
  ⟨cs.takeWhile isWordChar, cs.dropWhile isWordChar, List.takeWhile_append_dropWhile.symm,
    fun c hc => isWordChar_iff.1 (List.all_eq_true.1 List.all_takeWhile c hc),
    fun c hc => isWordChar_eq_false_iff.1 (head_dropWhile isWordChar cs c hc)⟩

theorem exists_wordBetween (h : column ≤ line.length) : ∃ front word rest,
    line = front ++ (word ++ rest) ∧ front.length ≤ column ∧ column ≤ (front ++ word).length ∧
      WordBetween front word rest := by
  obtain ⟨us, front, hback, hus, hleft⟩ := exists_plain (line.take column).reverse
  obtain ⟨vs, rest, hdrop, hvs, hright⟩ := exists_plain (line.drop column)
  have htake : line.take column = front.reverse ++ us.reverse := by
    rw [← List.reverse_append, ← hback, List.reverse_reverse]
  have hcolumn : column = front.length + us.length := by
    have hlength := congrArg List.length htake
    simpa [Nat.min_eq_left h] using hlength
  refine ⟨front.reverse, us.reverse ++ vs, rest, ?_, ?_, ?_, ?_, ?_, hright⟩
  · conv => lhs; rw [← List.take_append_drop column line, htake, hdrop]
    simp
  · simp [hcolumn]
  · simp [hcolumn]
  · simpa [or_imp, forall_and] using ⟨hus, hvs⟩
  · simpa using hleft

theorem exists_split (hle : front.length ≤ column) (hcolumn : column ≤ (front ++ word).length) :
    ∃ us vs, word = us ++ vs ∧ column = (front ++ us).length := by
  refine ⟨word.take (column - front.length), word.drop (column - front.length),
    (List.take_append_drop _ word).symm, ?_⟩
  rw [List.length_append] at hcolumn ⊢
  rw [List.length_take]
  omega

namespace WordBetween

variable (h : WordBetween front word rest) (hle : front.length ≤ column)
  (hcolumn : column ≤ (front ++ word).length)
include h hle hcolumn

theorem wordIn_eq :
    wordIn (front ++ (word ++ rest)) column = if word = [] then none else some word := by
  obtain ⟨us, vs, rfl, rfl⟩ := exists_split hle hcolumn
  obtain ⟨hus, hvs⟩ := List.forall_mem_append.1 h.plain
  have hline : front ++ (us ++ vs ++ rest) = front ++ us ++ (vs ++ rest) := by
    simp only [List.append_assoc]
  have hback : (front ++ us).reverse.takeWhile isWordChar = us.reverse := by
    rw [List.reverse_append]
    exact takeWhile_word (fun c hc => hus c (List.mem_reverse.1 hc)) (by simpa using h.left)
  rw [hline, wordIn, List.take_left, List.drop_left, hback, takeWhile_word hvs h.right,
    List.reverse_reverse]

theorem wordSpan?_eq : wordSpan? (front ++ (word ++ rest)) column =
    some (front.length, (front ++ word).length) := by
  obtain ⟨us, vs, rfl, rfl⟩ := exists_split hle hcolumn
  obtain ⟨hus, hvs⟩ := List.forall_mem_append.1 h.plain
  have hline : front ++ (us ++ vs ++ rest) = front ++ us ++ (vs ++ rest) := by
    simp only [List.append_assoc]
  have hmin : min (front ++ us).length (front ++ us ++ (vs ++ rest)).length = (front ++ us).length :=
    Nat.min_eq_left (by simp)
  rw [hline, wordSpan?, hmin, wordStart?_eq hus h.left, wordStop?_eq hvs h.right, List.append_assoc]
  rfl

theorem unbroken :
    Unbroken (front ++ (word ++ rest)) column front.length (front ++ word).length := by
  refine ⟨⟨hle, hcolumn, by simp⟩, fun i c hi hstop hc => h.plain c ?_⟩
  rw [List.length_append] at hstop
  rw [List.getElem?_append_right hi, List.getElem?_append_left (by omega)] at hc
  exact List.mem_of_getElem? hc

/-- Every piece without a break that touches the column is a part of the word. -/
theorem contains (hpiece : Unbroken (front ++ (word ++ rest)) column start stop) :
    front.length ≤ start ∧ stop ≤ (front ++ word).length := by
  obtain ⟨hstart, hstop, hlength⟩ := hpiece.bounds
  -- A piece that began before the word would hold the break before it.
  have hfront : front.length ≤ start := by
    by_contra hlt
    rcases front.eq_nil_or_concat' with rfl | ⟨front, c, rfl⟩
    · exact hlt (Nat.zero_le _)
    · rw [List.length_append, List.length_singleton] at hle hlt
      have hc : (front ++ [c] ++ (word ++ rest))[front.length]? = some c := by simp
      have hplain := hpiece.plain front.length c (by omega) (by omega) hc
      exact Bool.noConfusion (hplain.symm.trans (h.left c (by simp)))
  -- And one that ended behind it would hold the break behind it.
  have hword : stop ≤ (front ++ word).length := by
    by_contra hlt
    rw [← List.append_assoc] at hpiece hlength
    cases rest with
    | nil =>
      rw [List.append_nil] at hlength
      exact hlt hlength
    | cons c rest =>
      have hc := getElem?_behind (front ++ word) rest c
      have hplain := hpiece.plain _ c (by omega) (by omega) hc
      exact Bool.noConfusion (hplain.symm.trans (h.right c rfl))
  exact ⟨hfront, hword⟩

theorem maximal_iff : MaximalUnbroken (front ++ (word ++ rest)) column start stop ↔
    start = front.length ∧ stop = (front ++ word).length := by
  constructor
  · rintro ⟨hpiece, hmax⟩
    obtain ⟨hstart, hstop⟩ := h.contains hle hcolumn hpiece
    obtain ⟨rfl, rfl⟩ := hmax _ _ (h.unbroken hle hcolumn) hstart hstop
    exact ⟨rfl, rfl⟩
  · rintro ⟨rfl, rfl⟩
    refine ⟨h.unbroken hle hcolumn, fun i j hpiece hi hj => ?_⟩
    obtain ⟨hstart, hstop⟩ := h.contains hle hcolumn hpiece
    exact ⟨Nat.le_antisymm hi hstart, Nat.le_antisymm hstop hj⟩

end WordBetween

/-! ### Words in texts -/

/-- Behind a line the word is looked for at its end. -/
theorem wordIn_min (line : List Char) (column : Nat) :
    wordIn line (min column line.length) = wordIn line column := by
  rcases Nat.le_total column line.length with h | h
  · rw [Nat.min_eq_left h]
  · rw [Nat.min_eq_right h, wordIn, wordIn, List.take_length, List.drop_length, List.take_of_length_le h,
      List.drop_of_length_le h]

theorem wordSpan?_min (line : List Char) (column : Nat) :
    wordSpan? line (min column line.length) = wordSpan? line column := by
  rw [wordSpan?, wordSpan?, Nat.min_assoc, Nat.min_self]

/-- At each column of a line there is one greatest piece of the line that touches the column and holds no
break; a column behind the line counts as its end. The search comes to the ends of the piece and asks
for no character outside of the line. The word at the column is the piece, if it is not empty, and it is
the same at its ends and at each column between them. Behind the last line there is no word. -/
theorem word_maximal (cs : List Char) :
    (∀ (p : Position) (line : List Char), (Text.lines cs)[p.line]? = some line →
      ∃ start stop word, wordSpan? line p.column = some (start, stop) ∧
        (∀ i j, MaximalUnbroken line (min p.column line.length) i j ↔ i = start ∧ j = stop) ∧
        word = (line.take stop).drop start ∧ wordAt cs p = (if word = [] then none else some word) ∧
        ∀ column, start ≤ column → column ≤ stop → wordAt cs ⟨p.line, column⟩ = wordAt cs p) ∧
    ∀ p : Position, (Text.lines cs).length ≤ p.line → wordAt cs p = none := by
  constructor
  · intro p line hline
    have hat (column : Nat) : wordAt cs ⟨p.line, column⟩ = wordIn line column := by
      rw [wordAt, lineAt?, hline]
      rfl
    obtain ⟨front, word, rest, hsplit, hle, hcolumn, hword⟩ :=
      exists_wordBetween (Nat.min_le_right p.column line.length)
    have hspan := hword.wordSpan?_eq hle hcolumn
    rw [← hsplit, wordSpan?_min] at hspan
    have hmax (i j : Nat) : MaximalUnbroken line (min p.column line.length) i j ↔
        i = front.length ∧ j = (front ++ word).length := by
      have h : MaximalUnbroken (front ++ (word ++ rest)) _ i j ↔ _ := hword.maximal_iff hle hcolumn
      rwa [← hsplit] at h
    have hin (column : Nat) (hle : front.length ≤ column) (hcolumn : column ≤ (front ++ word).length) :
        wordIn line column = if word = [] then none else some word := by
      rw [hsplit]
      exact hword.wordIn_eq hle hcolumn
    have hwordAt : wordAt cs p = if word = [] then none else some word := by
      rw [← hin _ hle hcolumn, wordIn_min]
      exact hat p.column
    refine ⟨front.length, (front ++ word).length, word, hspan, hmax, ?_, hwordAt,
      fun column hle hcolumn => ?_⟩
    · rw [hsplit, ← List.append_assoc, List.take_left, List.drop_left]
    · rw [hat, hin column hle hcolumn, hwordAt]
  · intro p hp
    rw [wordAt, lineAt?, List.getElem?_eq_none hp]
    rfl

/-- A column behind a line that ends with a form feed, which is no break. -/
theorem word_maximal_form_feed :
    let cs := "(f ab\x0cc".toList
    let line := "(f ab\x0c".toList
    let word := "ab\x0c".toList
    (Text.lines cs)[0]? = some line ∧ MaximalUnbroken line 6 3 6 ∧ wordAt cs ⟨0, 9⟩ = some word ∧
      wordAt cs ⟨0, 3⟩ = some word ∧ (Text.lines cs).length ≤ 2 ∧ wordAt cs ⟨2, 0⟩ = none := by
  intro cs line word
  have hline : (Text.lines cs)[0]? = some line := by decide +kernel
  have hlength : (Text.lines cs).length ≤ 2 := by decide +kernel
  have hbetween : WordBetween "(f ".toList word [] :=
    ⟨by simp [word, isWordBreak], by simp [isWordBreak], nofun⟩
  have hspan : wordSpan? line 9 = some (3, 6) := by
    rw [← wordSpan?_min]
    exact hbetween.wordSpan?_eq (by decide) (by decide)
  obtain ⟨hwords, hnone⟩ := word_maximal cs
  obtain ⟨start, stop, w, hspan', hmax, hw, hword, hsame⟩ := hwords ⟨0, 9⟩ line hline
  cases hspan.symm.trans hspan'
  have hw : w = word := hw.trans (by decide)
  have hfound : wordAt cs ⟨0, 9⟩ = some word := by
    rw [hword, hw]
    rfl
  exact ⟨hline, (hmax 3 6).2 ⟨rfl, rfl⟩, hfound, (hsame 3 (by decide) (by decide)).trans hfound,
    hlength, hnone ⟨2, 0⟩ hlength⟩

end DynamicLisp.Editor
