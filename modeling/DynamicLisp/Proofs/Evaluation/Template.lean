import DynamicLisp.Evaluation.Template
import Mathlib.Data.List.Infix

/-! Templates and their sections. A template is cut into the sections it is written from, and no other
ones have the same text (`split_eq_ok_iff`), unless there is an expression that is never closed
(`split_eq_error_iff`). -/
namespace DynamicLisp

/-- How a section is written in a template. -/
def Section.written : Section → List Char
  | literal text => text
  | expression text => '$' :: '\x7b' :: (text ++ ['\x7d'])

namespace Template

/-- What opens an expression. -/
def opener : List Char := ['$', '\x7b']

/-- The template that is made of sections. -/
def write (ss : List Section) : List Char := ss.flatMap Section.written

/-- There is no literal in front. -/
def NoLiteralFirst (ss : List Section) : Prop := ∀ text rest, ss ≠ .literal text :: rest

/-- Sections that can be told apart once they are written: a literal is not empty, opens no expression
and is not followed by another one, and an expression does not close itself. -/
inductive Separate : List Section → Prop
  | nil : Separate []
  | literal {text : List Char} {ss : List Section} : text ≠ [] → ¬ opener <:+: text →
    NoLiteralFirst ss → Separate ss → Separate (.literal text :: ss)
  | expression {text : List Char} {ss : List Section} : '\x7d' ∉ text → Separate ss →
    Separate (.expression text :: ss)

variable {c : Char} {cs text rest : List Char} {s : Section} {ss : List Section} {e : ReadError}

theorem write_cons (s : Section) (ss : List Section) : write (s :: ss) = s.written ++ write ss :=
  List.flatMap_cons

/-! ### Braces -/

theorem closeBrace_append (h : '\x7d' ∉ text) (rest : List Char) :
    closeBrace (text ++ '\x7d' :: rest) = some (text, rest) := by
  induction text with
  | nil => rfl
  | cons c text ih =>
    rw [List.mem_cons, not_or] at h
    obtain ⟨hc, htext⟩ := h
    rw [List.cons_append, closeBrace.eq_3 _ _ (Ne.symm hc), ih htext]
    rfl

theorem closeBrace_eq_some (h : closeBrace cs = some (text, rest)) :
    cs = text ++ '\x7d' :: rest ∧ '\x7d' ∉ text := by
  fun_induction closeBrace cs generalizing text rest with
  | case1 => cases h
  | case2 cs =>
    cases h
    exact ⟨rfl, List.not_mem_nil⟩
  | case3 c cs hc ih =>
    obtain ⟨⟨text, rest⟩, hrest, hpair⟩ := Option.map_eq_some_iff.1 h
    cases hpair
    obtain ⟨rfl, htext⟩ := ih hrest
    refine ⟨rfl, ?_⟩
    rw [List.mem_cons, not_or]
    exact ⟨fun he => hc he.symm, htext⟩

theorem closeBrace_eq_none : closeBrace cs = none ↔ '\x7d' ∉ cs := by
  fun_induction closeBrace cs with
  | case1 => simp
  | case2 cs => simp
  | case3 c cs hc ih =>
    rw [Option.map_eq_none_iff, ih, List.mem_cons, not_or]
    exact ⟨fun h => ⟨fun he => hc he.symm, h⟩, And.right⟩

/-! ### The first section -/

theorem split_open (h : '\x7d' ∉ text) (rest : List Char) :
    split ('$' :: '\x7b' :: (text ++ '\x7d' :: rest)) = (split rest).map (.expression text :: ·) := by
  rw [split]
  split
  · rename_i hnone
    rw [closeBrace_append h] at hnone
    cases hnone
  · rename_i text' rest' hsome
    rw [closeBrace_append h] at hsome
    cases hsome
    rfl

theorem split_unclosed (h : '\x7d' ∉ rest) :
    split ('$' :: '\x7b' :: rest) = .error .unclosedInterpolation := by
  rw [split]
  split
  · rfl
  · rename_i hsome
    rw [closeBrace_eq_none.2 h] at hsome
    cases hsome

theorem split_char (h : ¬ opener <+: c :: cs) : split (c :: cs) = (split cs).map (consLiteral c) := by
  rw [split]
  rintro cs rfl rfl
  exact h ⟨cs, rfl⟩

theorem write_consLiteral (c : Char) (ss : List Section) :
    write (consLiteral c ss) = c :: write ss := by
  unfold consLiteral
  split <;> rfl

theorem consLiteral_of_noLiteralFirst (h : NoLiteralFirst ss) (c : Char) :
    consLiteral c ss = .literal [c] :: ss := by
  unfold consLiteral
  split
  · exact absurd rfl (h _ _)
  · rfl

/-- A character that does not open an expression goes to the literal behind it, if there is one. -/
theorem Separate.consLiteral (h : Separate ss) (rest : List Char)
    (hopener : ¬ opener <+: c :: (write ss ++ rest)) : Separate (consLiteral c ss) := by
  have halone : ¬ opener <:+: [c] := fun hc => absurd hc.length_le (by simp [opener])
  cases h with
  | nil => exact .literal (List.cons_ne_nil c []) halone nofun .nil
  | @literal text ss htext hliteral hfirst hss =>
    refine .literal (List.cons_ne_nil c text) ?_ hfirst hss
    rw [List.infix_cons_iff, not_or]
    refine ⟨fun hopens => hopener (hopens.trans ⟨write ss ++ rest, ?_⟩), hliteral⟩
    rw [write_cons, List.append_assoc]
    rfl
  | expression htext hss =>
    exact .literal (List.cons_ne_nil c []) halone nofun (.expression htext hss)

/-! ### Reading what has been written -/

/-- A literal that stands before this text ends there. -/
def EndsLiteral (rest : List Char) : Prop := rest = [] ∨ opener <+: rest

theorem EndsLiteral.noLiteralFirst (hrest : EndsLiteral rest) (h : split rest = .ok ss) :
    NoLiteralFirst ss := by
  rcases hrest with rfl | ⟨cs, rfl⟩
  · rw [split] at h
    cases h
    intro text ss' hfirst
    cases hfirst
  · change split ('$' :: '\x7b' :: cs) = .ok ss at h
    rw [split] at h
    split at h
    · cases h
    · rename_i text rest _
      cases hsplit : split rest with
      | error e =>
        rw [hsplit] at h
        cases h
      | ok ss' =>
        rw [hsplit] at h
        cases h
        intro text ss' hfirst
        cases hfirst

theorem split_literal (htext : text ≠ []) (hliteral : ¬ opener <:+: text)
    (hrest : EndsLiteral rest) : split (text ++ rest) = (split rest).map (.literal text :: ·) := by
  induction text with
  | nil => exact absurd rfl htext
  | cons c text ih =>
    rw [List.infix_cons_iff, not_or] at hliteral
    obtain ⟨hopens, hinfix⟩ := hliteral
    cases text with
    | nil =>
      have hopener : ¬ opener <+: c :: rest := by
        rintro ⟨cs, hcs⟩
        obtain ⟨rfl, rfl⟩ : '$' = c ∧ '\x7b' :: cs = rest := List.cons.inj hcs
        rcases hrest with hnil | ⟨cs', hcs'⟩
        · cases hnil
        · cases hcs'
      rw [List.singleton_append, split_char hopener]
      cases hsplit : split rest with
      | error e => rfl
      | ok ss =>
        exact congrArg Except.ok (consLiteral_of_noLiteralFirst (hrest.noLiteralFirst hsplit) c)
    | cons c' text =>
      have hopener : ¬ opener <+: c :: (c' :: text ++ rest) := by
        rintro ⟨cs, hcs⟩
        obtain ⟨rfl, htail⟩ : '$' = c ∧ '\x7b' :: cs = c' :: (text ++ rest) := List.cons.inj hcs
        obtain ⟨rfl, -⟩ := List.cons.inj htail
        exact hopens ⟨text, rfl⟩
      rw [List.cons_append, split_char hopener, ih (List.cons_ne_nil c' text) hinfix]
      cases split rest <;> rfl

/-- Sections are found again in front of whatever ends a literal. -/
theorem split_write (h : Separate ss) (rest : List Char) (hrest : EndsLiteral rest) :
    split (write ss ++ rest) = (split rest).map (ss ++ ·) := by
  induction h with
  | nil => cases hsplit : split rest <;> simp [write, hsplit, Except.map]
  | @literal text ss htext hliteral hfirst hss ih =>
    have hends : EndsLiteral (write ss ++ rest) := by
      cases hss with
      | nil => exact hrest
      | literal => exact absurd rfl (hfirst _ _)
      | @expression text' ss' =>
        exact .inr ⟨text' ++ '\x7d' :: (write ss' ++ rest), by simp [write, Section.written, opener]⟩
    rw [write_cons, List.append_assoc, Section.written, split_literal htext hliteral hends, ih]
    cases split rest <;> rfl
  | @expression text ss htext hss ih =>
    have hwritten : write (.expression text :: ss) ++ rest =
        '$' :: '\x7b' :: (text ++ '\x7d' :: (write ss ++ rest)) := by
      simp [write, Section.written]
    rw [hwritten, split_open htext, ih]
    cases split rest <;> rfl

/-! ### Writing what has been read -/

/-- What a text is cut into has been written there: all of it, or all up to an expression that is never
closed. -/
theorem split_cases (cs : List Char) : ∃ ss, Separate ss ∧
    ((split cs = .ok ss ∧ write ss = cs) ∨
      split cs = .error .unclosedInterpolation ∧
        ∃ rest, cs = write ss ++ '$' :: '\x7b' :: rest ∧ '\x7d' ∉ rest) := by
  fun_induction split cs with
  | case1 => exact ⟨[], .nil, .inl ⟨rfl, rfl⟩⟩
  | case2 cs hnone =>
    exact ⟨[], .nil, .inr ⟨rfl, cs, rfl, closeBrace_eq_none.1 hnone⟩⟩
  | case3 cs text rest hsome ih =>
    obtain ⟨rfl, htext⟩ := closeBrace_eq_some hsome
    obtain ⟨ss, hss, ⟨hsplit, rfl⟩ | ⟨hsplit, rest, rfl, hrest⟩⟩ := ih
    · refine ⟨.expression text :: ss, .expression htext hss, .inl ⟨?_, ?_⟩⟩
      · rw [hsplit]
        rfl
      · simp [write, Section.written]
    · refine ⟨.expression text :: ss, .expression htext hss, .inr ⟨?_, rest, ?_, hrest⟩⟩
      · rw [hsplit]
        rfl
      · simp [write, Section.written]
  | case4 c cs hopen ih =>
    have hopener : ¬ opener <+: c :: cs := by
      rintro ⟨cs', hcs⟩
      obtain ⟨rfl, rfl⟩ : '$' = c ∧ '\x7b' :: cs' = cs := List.cons.inj hcs
      exact hopen cs' rfl rfl
    obtain ⟨ss, hss, ⟨hsplit, rfl⟩ | ⟨hsplit, rest, rfl, hrest⟩⟩ := ih
    · have hcons : Separate (consLiteral c ss) :=
        hss.consLiteral [] (by rwa [List.append_nil])
      refine ⟨consLiteral c ss, hcons, .inl ⟨?_, write_consLiteral c ss⟩⟩
      rw [hsplit]
      rfl
    · refine ⟨consLiteral c ss, hss.consLiteral _ hopener, .inr ⟨?_, rest, ?_, hrest⟩⟩
      · rw [hsplit]
        rfl
      · rw [write_consLiteral]
        rfl

theorem split_eq_ok_iff : split cs = .ok ss ↔ Separate ss ∧ write ss = cs := by
  constructor
  · intro h
    obtain ⟨ss', hss', ⟨hsplit, hwrite⟩ | ⟨hsplit, -⟩⟩ := split_cases cs
    · rw [h] at hsplit
      cases hsplit
      exact ⟨hss', hwrite⟩
    · rw [h] at hsplit
      cases hsplit
  · rintro ⟨hss, rfl⟩
    have hwrite := split_write hss [] (.inl rfl)
    rw [List.append_nil] at hwrite
    rw [hwrite, split]
    exact congrArg Except.ok (List.append_nil ss)

example : split "$$\x7b$\x7b\x7d\x7d\x7d".toList =
    .ok [.literal ['$'], .expression "$\x7b".toList, .literal "\x7d\x7d".toList] := by cbv

/-- A text cannot be cut into sections if the expression that is opened behind some of them is never
closed. -/
theorem split_eq_error_iff : split cs = .error e ↔ e = .unclosedInterpolation ∧
    ∃ ss rest, Separate ss ∧ cs = write ss ++ '$' :: '\x7b' :: rest ∧ '\x7d' ∉ rest := by
  constructor
  · intro h
    obtain ⟨ss, hss, ⟨hsplit, -⟩ | ⟨hsplit, rest, hcs, hrest⟩⟩ := split_cases cs
    · rw [h] at hsplit
      cases hsplit
    · rw [h] at hsplit
      cases hsplit
      exact ⟨rfl, ss, rest, hss, hcs, hrest⟩
  · rintro ⟨rfl, ss, rest, hss, rfl, hrest⟩
    rw [split_write hss ('$' :: '\x7b' :: rest) (.inr ⟨rest, rfl⟩), split_unclosed hrest]
    rfl

end Template

end DynamicLisp
