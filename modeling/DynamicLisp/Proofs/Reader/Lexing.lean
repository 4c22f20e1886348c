import DynamicLisp.Datum.Printer
import DynamicLisp.Proofs.Reader.Grammar
import DynamicLisp.Proofs.Reader.Lexical

/-! Texts that are read as one datum, whatever follows them (`Reads`), and how the texts of lists,
quotes and strings are made of such texts. -/
namespace DynamicLisp

open Cursor (Ends ends_nil ends_cons prepend prepend_append)

/-! ### Strings -/

theorem escape_cases (c : Char) : (escape c = [c] ∧ c ≠ '\\' ∧ c ≠ '"') ∨
    ∃ e, escape c = ['\\', e] ∧ (e, c) ∈ knownEscapes := by
  unfold escape knownEscapes
  split <;> simp_all

theorem spells_escape (cs : List Char) : Spells (cs.flatMap escape) cs := by
  induction cs with
  | nil => exact .nil
  | cons c cs ih =>
    rw [List.flatMap_cons]
    obtain ⟨hc, hslash, _⟩ | ⟨e, hc, hmem⟩ := escape_cases c
    · rw [hc]
      exact .plain hslash ih
    · rw [hc]
      exact .escaped hmem ih

theorem inside_escape (cs : List Char) : Inside (cs.flatMap escape) := by
  induction cs with
  | nil => exact .nil
  | cons c cs ih =>
    rw [List.flatMap_cons]
    obtain ⟨hc, hslash, hquote⟩ | ⟨e, hc, _⟩ := escape_cases c
    · rw [hc]
      exact .plain hquote hslash ih
    · rw [hc]
      exact .escaped e ih

/-! ### Texts of data -/

/-- A text that is read as a datum wherever an atom may end behind it. -/
def Reads (cs : List Char) (d : Datum) : Prop :=
  ∃ ts, Expression ts d ∧
    ∀ rest, Ends rest → Cursor.ofChars (cs ++ rest) = prepend ts (Cursor.ofChars rest)

/-- A text that is read as data one after the other. -/
def ReadsAll (cs : List Char) (ds : List Datum) : Prop :=
  ∃ ts, Sequence ts ds ∧
    ∀ rest, Ends rest → Cursor.ofChars (cs ++ rest) = prepend ts (Cursor.ofChars rest)

variable {cs us : List Char} {d : Datum} {ds : List Datum}

theorem ne_nil_of_ofAtom? (h : Datum.ofAtom? cs = .ok d) : cs ≠ [] := by
  rintro rfl
  cases h

theorem Reads.atom (h : Datum.ofAtom? cs = .ok d) (hcs : ∀ c ∈ cs, isAtomChar c = true) :
    Reads cs d :=
  ⟨[.atom cs], .atom h, fun _ hr =>
    Cursor.ofChars_text (t := .atom cs) ⟨ne_nil_of_ofAtom? h, hcs, hr⟩⟩

theorem Reads.string (s : String) : Reads (quoted s).toList (.string s) := by
  refine ⟨[.string (s.toList.flatMap escape)], ?_, fun rest _ => ?_⟩
  · have h := Expression.string (spells_escape s.toList)
    rwa [String.ofList_toList] at h
  · rw [quoted, String.toList_ofList]
    exact Cursor.ofChars_text (t := .string _) (inside_escape s.toList)

theorem Reads.quote (h : Reads cs d) : Reads ('\x27' :: cs) (.quote d) := by
  obtain ⟨ts, hts, hread⟩ := h
  refine ⟨.quote :: ts, .quote hts, fun rest hr => ?_⟩
  have hquote : Cursor.ofChars ('\x27' :: cs ++ rest) =
      prepend [.quote] (Cursor.ofChars (cs ++ rest)) := Cursor.ofChars_text (t := .quote) trivial
  rw [hquote, hread rest hr, ← prepend_append]
  rfl

/-- An expression in brackets. The closing bracket ends an atom before it. -/
theorem ReadsAll.list (b : Bracket) (h : ReadsAll cs ds) :
    Reads (b.opener :: cs ++ [b.closer]) (.list ds) := by
  obtain ⟨ts, hts, hread⟩ := h
  refine ⟨.opening b :: ts ++ [.closing b], .list b hts, fun rest _ => ?_⟩
  have hopener (us : List Char) : Cursor.ofChars (b.opener :: us) =
      prepend [.opening b] (Cursor.ofChars us) := Cursor.ofChars_text (t := .opening b) trivial
  have hcloser : Cursor.ofChars (b.closer :: rest) =
      prepend [.closing b] (Cursor.ofChars rest) := Cursor.ofChars_text (t := .closing b) trivial
  have hends : Ends (b.closer :: rest) := ends_cons rest (by cases b <;> rfl)
  rw [List.append_assoc, List.cons_append, hopener, List.singleton_append, hread _ hends, hcloser,
    ← prepend_append, ← prepend_append]
  rfl

theorem ReadsAll.nil : ReadsAll [] [] := ⟨[], .nil, fun _ _ => rfl⟩

theorem Reads.all (h : Reads cs d) : ReadsAll cs [d] := by
  obtain ⟨ts, hts, hread⟩ := h
  exact ⟨ts, hts.sequence, hread⟩

/-- The space behind an expression ends an atom, and is skipped. -/
theorem Reads.cons (h : Reads cs d) (hs : ReadsAll us ds) :
    ReadsAll (cs ++ ' ' :: us) (d :: ds) := by
  obtain ⟨ts, hts, hread⟩ := h
  obtain ⟨vs, hvs, hreads⟩ := hs
  refine ⟨ts ++ vs, .cons hts hvs, fun rest hr => ?_⟩
  have hspace : Cursor.ofChars (' ' :: (us ++ rest)) = Cursor.ofChars (us ++ rest) :=
    Cursor.ofChars_of_skip rfl
  rw [List.append_assoc, List.cons_append, hread _ (ends_cons _ (by decide)), hspace,
    hreads rest hr, prepend_append]

/-- The texts of data, separated by single spaces. -/
theorem readsAll_intercalate {f : Datum → Datum}
    (h : ∀ d ∈ ds, Reads (Datum.source d).toList (f d)) :
    ReadsAll (" ".intercalate (ds.map Datum.source)).toList (ds.map f) := by
  induction ds with
  | nil => exact .nil
  | cons d ds ih =>
    have hd : Reads (Datum.source d).toList (f d) := h d List.mem_cons_self
    have hds := ih fun e he => h e (List.mem_cons_of_mem d he)
    cases ds with
    | nil =>
      rw [List.map_singleton, String.intercalate_singleton]
      exact hd.all
    | cons e ds =>
      have hjoin : (" ".intercalate ((d :: e :: ds).map Datum.source)).toList =
          (Datum.source d).toList ++ ' ' ::
            (" ".intercalate ((e :: ds).map Datum.source)).toList := by
        rw [List.map_cons, List.map_cons, String.intercalate_cons_cons, String.toList_append,
          String.toList_append, List.append_assoc]
        rfl
      rw [hjoin]
      exact hd.cons hds

/-- A whole text of data. -/
theorem ReadsAll.ofText {text : String} (h : ReadsAll text.toList ds) :
    ∃ ts, Cursor.ofText text = ⟨ts, none⟩ ∧ Sequence ts ds := by
  obtain ⟨ts, hts, hread⟩ := h
  refine ⟨ts, ?_, hts⟩
  have htext := hread [] ends_nil
  have hend : Cursor.ofChars [] = .done := by
    rw [Cursor.ofChars]
    rfl
  rw [List.append_nil, hend] at htext
  rw [Cursor.ofText, htext]
  simp [prepend, Cursor.done]

end DynamicLisp
