import Mathlib.Data.List.TakeDrop
import DynamicLisp.Reader.Atom

/-! Which characters an atom is made of (`ofAtom?_chars`), what it is read as (`ofAtom?_cases`), and
with which errors atoms and strings are rejected. -/
namespace DynamicLisp

variable {cs name : List Char} {s : Symbol} {d : Datum} {e : ReadError}

/-! ### Numerals -/

namespace Numeral

/-- The characters of numerals, with the digits of any script. -/
def IsChar (c : Char) : Prop := Text.isDigit c = true ∨ c ∈ ['+', '-', '.', 'e', 'E']

theorem sign_chars (h : ∀ c ∈ (sign cs).2, IsChar c) : ∀ c ∈ cs, IsChar c := by
  unfold sign at h
  split at h
  · exact List.forall_mem_cons.2 ⟨.inr (by decide), h⟩
  · exact List.forall_mem_cons.2 ⟨.inr (by decide), h⟩
  · exact h

theorem span_chars (h : ∀ c ∈ cs.dropWhile Text.isDigit, IsChar c) : ∀ c ∈ cs, IsChar c := by
  intro c hc
  rw [← List.takeWhile_append_dropWhile (p := Text.isDigit) (l := cs)] at hc
  rcases List.mem_append.1 hc with hc | hc
  · exact .inl (List.all_eq_true.1 List.all_takeWhile c hc)
  · exact h c hc

theorem fractionOf_chars (h : ∀ c ∈ (fractionOf cs).2, IsChar c) : ∀ c ∈ cs, IsChar c := by
  unfold fractionOf at h
  split at h
  · rw [List.span_eq_takeWhile_dropWhile] at h
    exact List.forall_mem_cons.2 ⟨.inr (by decide), span_chars h⟩
  · exact h

theorem exponent?_chars {n : Int} (h : exponent? cs = some n) : ∀ c ∈ cs, IsChar c := by
  cases cs with
  | nil => simp
  | cons c cs =>
    simp only [exponent?] at h
    split at h
    · rename_i hvalid
      obtain ⟨hletter, -, hdigits⟩ := hvalid
      refine List.forall_mem_cons.2 ⟨?_, sign_chars fun d hd => .inl ?_⟩
      · rcases hletter with rfl | rfl <;> exact .inr (by decide)
      · exact List.all_eq_true.1 hdigits d hd
    · cases h

theorem ofText?_chars {n : Numeral} (h : ofText? cs = some n) : ∀ c ∈ cs, IsChar c := by
  simp only [ofText?, List.span_eq_takeWhile_dropWhile] at h
  split at h
  · cases h
  · obtain ⟨x, hx, -⟩ := Option.map_eq_some_iff.1 h
    exact sign_chars (span_chars (fractionOf_chars (exponent?_chars hx)))

end Numeral

/-! ### Atoms -/

theorem dropVariadicMark_eq_some (h : dropVariadicMark cs = some name) :
    cs = name ++ "...".toList := by
  unfold dropVariadicMark at h
  split at h
  · rename_i hrev
    cases h
    rw [← List.reverse_inj, hrev]
    simp
  · cases h

/-- A symbol is written as the identifier that it was read from. -/
theorem text_of_ofText? (h : Symbol.ofText? cs = .ok s) :
    s.text.toList = cs ∧ ∀ c ∈ cs, isIdentifierChar c = true := by
  unfold Symbol.ofText? at h
  split at h
  · cases h
  · rename_i hvalid
    have hall : ∀ c ∈ cs, isIdentifierChar c = true := by
      simp only [not_or, Bool.not_eq_true, Bool.not_eq_false'] at hvalid
      exact List.all_eq_true.1 hvalid.2
    refine ⟨?_, hall⟩
    split at h
    · cases h
      exact String.toList_ofList
    · cases h
    · rename_i hmark
      cases h
      simp [Symbol.text, dropVariadicMark_eq_some hmark]

/-- The words of booleans. -/
def booleanWords : List (List Char) := ["#t", "true", "#f", "false"].map String.toList

/-- The classes of atoms, each with the way it was read. -/
theorem ofAtom?_cases (h : Datum.ofAtom? cs = .ok d) :
    (∃ b, cs ∈ booleanWords ∧ d = .bool b) ∨
      (∃ n, Numeral.ofText? cs = some n ∧ d = .number n.value) ∨
      ∃ s, Symbol.ofText? cs = .ok s ∧ d = .symbol s := by
  unfold Datum.ofAtom? at h
  split at h
  · rename_i hword
    cases h
    rcases hword with rfl | rfl <;> exact .inl ⟨_, by simp [booleanWords], rfl⟩
  · split at h
    · rename_i hword
      cases h
      rcases hword with rfl | rfl <;> exact .inl ⟨_, by simp [booleanWords], rfl⟩
    · split at h
      · rename_i n hn
        cases h
        exact .inr (.inl ⟨n, hn, rfl⟩)
      · cases hs : Symbol.ofText? cs with
        | error e =>
          rw [hs] at h
          cases h
        | ok s =>
          rw [hs] at h
          cases h
          exact .inr (.inr ⟨s, rfl, rfl⟩)

/-- The words of booleans are no numerals. -/
theorem ofAtom?_of_numeral {n : Numeral} (h : Numeral.ofText? cs = some n) :
    Datum.ofAtom? cs = .ok (.number n.value) := by
  have hnone : ∀ w ∈ booleanWords, Numeral.ofText? w = none := by decide
  have hword : cs ∉ booleanWords := by
    intro hmem
    rw [hnone cs hmem] at h
    cases h
  simp only [booleanWords, List.map_cons, List.map_nil, List.mem_cons, List.not_mem_nil, or_false,
    not_or] at hword
  obtain ⟨ht, htrue, hf, hfalse⟩ := hword
  rw [Datum.ofAtom?, if_neg (not_or.2 ⟨ht, htrue⟩), if_neg (not_or.2 ⟨hf, hfalse⟩), h]
  rfl

/-- An atom is made of characters of identifiers and digits of any script. -/
theorem ofAtom?_chars (h : Datum.ofAtom? cs = .ok d) :
    ∀ c ∈ cs, isIdentifierChar c = true ∨ Text.isDigit c = true := by
  intro c hc
  rcases ofAtom?_cases h with ⟨b, hword, -⟩ | ⟨n, hn, -⟩ | ⟨s, hs, -⟩
  · have hwords : ∀ w ∈ booleanWords, ∀ c ∈ w, isIdentifierChar c = true := by
      simp [booleanWords, isIdentifierChar]
    exact .inl (hwords cs hword c hc)
  · have hmarks : ∀ c ∈ ['+', '-', '.', 'e', 'E'], isIdentifierChar c = true := by
      simp [isIdentifierChar]
    rcases Numeral.ofText?_chars hn c hc with hdigit | hmark
    · exact .inr hdigit
    · exact .inl (hmarks c hmark)
  · exact .inl ((text_of_ofText? hs).2 c hc)

/-! ### Errors -/

theorem error_of_ofText? (h : Symbol.ofText? cs = .error e) :
    e = .invalidIdentifier (String.ofList cs) ∨ e = .emptyIdentifier := by
  unfold Symbol.ofText? at h
  split at h
  · cases h
    exact .inl rfl
  split at h
  · cases h
  · cases h
    exact .inr rfl
  · cases h

theorem error_of_ofAtom? (h : Datum.ofAtom? cs = .error e) :
    e = .invalidIdentifier (String.ofList cs) ∨ e = .emptyIdentifier := by
  unfold Datum.ofAtom? at h
  split at h
  · cases h
  split at h
  · cases h
  split at h
  · cases h
  · cases hs : Symbol.ofText? cs with
    | error e' =>
      rw [hs] at h
      cases h
      exact error_of_ofText? hs
    | ok s => rw [hs] at h; cases h

theorem error_of_unescape (h : unescape cs = .error e) : ∃ c, e = .unknownEscape c := by
  fun_induction unescape cs generalizing e with
  | case1 => cases h
  | case2 => cases h; exact ⟨_, rfl⟩
  | case3 c cs d _ ih =>
    cases hcs : unescape cs with
    | error e' =>
      rw [hcs] at h
      cases h
      exact ih hcs
    | ok ds => rw [hcs] at h; cases h
  | case4 c cs _ => cases h; exact ⟨_, rfl⟩
  | case5 c cs _ _ ih =>
    cases hcs : unescape cs with
    | error e' =>
      rw [hcs] at h
      cases h
      exact ih hcs
    | ok ds => rw [hcs] at h; cases h

end DynamicLisp
