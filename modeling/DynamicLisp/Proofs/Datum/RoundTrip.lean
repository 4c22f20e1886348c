import DynamicLisp.Proofs.Number.ReadBack
import DynamicLisp.Proofs.Reader.Atom
import DynamicLisp.Proofs.Reader.Earliest
import DynamicLisp.Proofs.Reader.Lexing

/-! The texts of expressions are read back as the expressions, but for the sign of zero and the
empty list that is written as a quote (`read_sources`). -/
namespace DynamicLisp

open Number (isFinite dropZeroSign)

/-! ### Characters of atoms -/

theorem isAtomChar_of_isAlphanum {c : Char} (h : c.isAlphanum = true) : isAtomChar c = true := by
  have hrange : (48 ≤ c.toNat ∧ c.toNat ≤ 57) ∨ (65 ≤ c.toNat ∧ c.toNat ≤ 90) ∨
      (97 ≤ c.toNat ∧ c.toNat ≤ 122) := by
    simp only [Char.isAlphanum, Char.isAlpha, Char.isUpper, Char.isLower, Char.isDigit,
      Bool.or_eq_true, Bool.and_eq_true, decide_eq_true_eq, ge_iff_le, UInt32.le_iff_toNat_le] at h
    change ((65 ≤ c.toNat ∧ c.toNat ≤ 90) ∨ (97 ≤ c.toNat ∧ c.toNat ≤ 122)) ∨
      (48 ≤ c.toNat ∧ c.toNat ≤ 57) at h
    omega
  have hblank : Text.isBlank c = false := by
    simp only [Text.isBlank, Bool.or_eq_false_iff, Bool.and_eq_false_iff, decide_eq_false_iff_not,
      beq_eq_false_iff_ne]
    omega
  have hdelimiter : isDelimiter c = false := by
    simp only [isDelimiter, Bool.or_eq_false_iff, beq_eq_false_iff_ne]
    refine ⟨⟨⟨⟨⟨⟨?_, ?_⟩, ?_⟩, ?_⟩, ?_⟩, ?_⟩, ?_⟩ <;> (rintro rfl; cases h)
  rw [isAtomChar, hblank, hdelimiter]
  rfl

theorem isAtomChar_of_isIdentifierChar {c : Char} (h : isIdentifierChar c = true) :
    isAtomChar c = true := by
  rcases Bool.or_eq_true_iff.1 h with h | h
  · exact isAtomChar_of_isAlphanum h
  · have hall : "-_+/*%><=?!&$.#:λ".toList.all isAtomChar = true := by decide
    exact List.all_eq_true.1 hall c (List.contains_iff_mem.1 h)

theorem isAtomChar_of_isNumberChar {c : Char} (h : Number.IsNumberChar c) :
    isAtomChar c = true := by
  rcases h with h | h
  · exact isAtomChar_of_isAlphanum (by rw [Char.isAlphanum, h, Bool.or_true])
  · have hall : ['.', 'e', '+', '-'].all isAtomChar = true := by decide
    exact List.all_eq_true.1 hall c h

/-! ### Atoms -/

variable {cs : List Char} {s : Symbol} {d : Datum} {ds : List Datum} {x : Float}

theorem reads_bool (b : Bool) : Reads (Datum.bool b).source.toList (.bool b) := by
  cases b with
  | true =>
    have hall : "true".toList.all isAtomChar = true := by decide
    exact .atom rfl (List.all_eq_true.1 hall)
  | false =>
    have hall : "false".toList.all isAtomChar = true := by decide
    exact .atom rfl (List.all_eq_true.1 hall)

theorem reads_number (h : isFinite x) :
    Reads (Datum.number x).source.toList (.number (dropZeroSign x)) := by
  obtain ⟨n, hn, hvalue⟩ := Number.ofText?_toText h
  rw [← hvalue]
  exact .atom (ofAtom?_of_numeral hn) fun c hc =>
    isAtomChar_of_isNumberChar (Number.toText_chars h c hc)

theorem reads_symbol (h : Datum.ofAtom? cs = .ok (.symbol s)) :
    Reads (Datum.symbol s).source.toList (.symbol s) := by
  obtain ⟨b, -, hb⟩ | ⟨n, _, hn⟩ | ⟨s', hs, he⟩ := ofAtom?_cases h
  · cases hb
  · cases hn
  · cases he
    obtain ⟨htext, hchars⟩ := text_of_ofText? hs
    rw [Datum.source, htext]
    exact .atom h fun c hc => isAtomChar_of_isIdentifierChar (hchars c hc)

/-! ### Expressions -/

/-- The expressions that can be written: those made of booleans, finite numbers, strings, and
symbols that some identifier stands for. -/
inductive Writable : Datum → Prop
  | bool (b : Bool) : Writable (.bool b)
  | number {x : Float} : isFinite x → Writable (.number x)
  | string (s : String) : Writable (.string s)
  | symbol {cs : List Char} {s : Symbol} :
    Datum.ofAtom? cs = .ok (.symbol s) → Writable (.symbol s)
  | nil : Writable .nil
  | quote {d : Datum} : Writable d → Writable (.quote d)
  | list {ds : List Datum} : (∀ d ∈ ds, Writable d) → Writable (.list ds)

namespace Datum

mutual

/-- An expression with its leaves changed. -/
def mapLeaves (f : Datum → Datum) : Datum → Datum
  | list ds => list (mapLeavesOf f ds)
  | quote d => quote (mapLeaves f d)
  | d => f d

def mapLeavesOf (f : Datum → Datum) : List Datum → List Datum
  | [] => []
  | d :: ds => mapLeaves f d :: mapLeavesOf f ds

end

theorem mapLeavesOf_eq_map (f : Datum → Datum) (ds : List Datum) :
    mapLeavesOf f ds = ds.map (mapLeaves f) := by
  induction ds with
  | nil => rfl
  | cons d ds ih => rw [mapLeavesOf, ih, List.map_cons]

/-- A number loses the sign of zero. -/
def unsignZero : Datum → Datum
  | number x => number (dropZeroSign x)
  | d => d

/-- A leaf as it is read for its text. -/
def rereadLeaf : Datum → Datum
  | nil => quote (list [])
  | d => unsignZero d

end Datum

open Datum (mapLeaves rereadLeaf unsignZero)

/-- Every expression that can be written is read back. -/
theorem Writable.reads (h : Writable d) : Reads d.source.toList (mapLeaves rereadLeaf d) := by
  induction h with
  | bool b => exact reads_bool b
  | number hx => exact reads_number hx
  | string s => exact .string s
  | symbol hs => exact reads_symbol hs
  | nil => exact (ReadsAll.nil.list .round).quote
  | quote _ ih =>
    rw [Datum.source, String.toList_append, mapLeaves]
    exact ih.quote
  | @list ds _ ih =>
    have hall := (readsAll_intercalate ih).list .round
    rw [Datum.source, inParens, Datum.sources_eq_map, mapLeaves, Datum.mapLeavesOf_eq_map]
    simpa [Bracket.opener, Bracket.closer] using hall

theorem read_of_writable (h : ∀ d ∈ ds, Writable d) :
    read (" ".intercalate (ds.map Datum.source)) = .ok (ds.map (mapLeaves rereadLeaf)) := by
  obtain ⟨ts, hts, hseq⟩ := (readsAll_intercalate fun d hd => (h d hd).reads).ofText
  rw [read_eq_ok, ofCursor_eq_iff, hts]
  exact ⟨rfl, hseq⟩

/-! ### Expressions that were read -/

/-- No number among the atoms is written beyond the greatest double. -/
def NoOverflow (ts : List Token) : Prop :=
  ∀ cs n, .atom cs ∈ ts → Numeral.ofText? cs = some n → isFinite n.value

theorem NoOverflow.subset {ts us : List Token} (h : NoOverflow us) (hsub : ts ⊆ us) :
    NoOverflow ts := fun cs n hmem => h cs n (hsub hmem)

mutual

/-- What the grammar derives can be written, and no leaf of it is `nil`. -/
theorem Expression.writable {ts : List Token} {d : Datum} :
    Expression ts d → NoOverflow ts → Writable d ∧ mapLeaves rereadLeaf d = mapLeaves unsignZero d
  | .atom h, hts => by
    obtain ⟨b, -, rfl⟩ | ⟨n, hn, rfl⟩ | ⟨s, _, rfl⟩ := ofAtom?_cases h
    · exact ⟨.bool b, rfl⟩
    · exact ⟨.number (hts _ n List.mem_cons_self hn), rfl⟩
    · exact ⟨.symbol h, rfl⟩
  | .string _, _ => ⟨.string _, rfl⟩
  | .quote h, hts => by
    obtain ⟨hwritable, hleaves⟩ := h.writable (hts.subset (List.subset_cons_self _ _))
    exact ⟨.quote hwritable, congrArg Datum.quote hleaves⟩
  | .list b h, hts => by
    have hitems := h.writable (hts.subset fun t ht =>
      List.mem_append_left _ (List.mem_cons_of_mem _ ht))
    refine ⟨.list fun d hd => (hitems d hd).1, ?_⟩
    rw [mapLeaves, mapLeaves, Datum.mapLeavesOf_eq_map, Datum.mapLeavesOf_eq_map]
    exact congrArg Datum.list (List.map_congr_left fun d hd => (hitems d hd).2)

theorem Sequence.writable {ts : List Token} {ds : List Datum} :
    Sequence ts ds → NoOverflow ts →
      ∀ d ∈ ds, Writable d ∧ mapLeaves rereadLeaf d = mapLeaves unsignZero d
  | .nil, _ => List.forall_mem_nil _
  | .cons he hs, hts => by
    have hfirst := he.writable (hts.subset (List.subset_append_left _ _))
    have hrest := hs.writable (hts.subset (List.subset_append_right _ _))
    exact List.forall_mem_cons.2 ⟨hfirst, hrest⟩

end

/-- The texts of expressions, separated by single spaces, are read back as the expressions, in
which zero has lost its sign and `nil` is a quoted empty list. What has been read from some text
without too great a number has no `nil`. -/
theorem read_sources :
    (∀ ds : List Datum, (∀ d ∈ ds, Writable d) →
      read (" ".intercalate (ds.map Datum.source)) = .ok (ds.map (mapLeaves rereadLeaf))) ∧
    (∀ text ds, read text = .ok ds → NoOverflow (Cursor.ofText text).tokens →
      read (" ".intercalate (ds.map Datum.source)) = .ok (ds.map (mapLeaves unsignZero))) := by
  refine ⟨fun ds h => read_of_writable h, fun text ds htext hts => ?_⟩
  have hitems := (ofCursor_eq_iff.1 (read_eq_ok.1 htext)).2.writable hts
  rw [read_of_writable fun d hd => (hitems d hd).1]
  exact congrArg Except.ok (List.map_congr_left fun d hd => (hitems d hd).2)

/-- A name that keeps dots when its variadic mark is taken off, and a zero with a sign. -/
theorem read_sources_dots :
    read (" ".intercalate ([.symbol ⟨"a...", true⟩, .nil, .number (-0.0)].map Datum.source)) =
      .ok [.symbol ⟨"a...", true⟩, .quote (.list []), .number 0.0] ∧
    read (" ".intercalate ([.symbol ⟨"a...", true⟩, .number (-0.0)].map Datum.source)) =
      .ok [.symbol ⟨"a...", true⟩, .number 0.0] := by
  have hname : Datum.ofAtom? "a......".toList = .ok (.symbol ⟨"a...", true⟩) := rfl
  have hzero : dropZeroSign (-0.0) = 0.0 := by decide
  constructor
  · have hwritable : ∀ d ∈ [Datum.symbol ⟨"a...", true⟩, .nil, .number (-0.0)], Writable d := by
      simp only [List.forall_mem_cons]
      exact ⟨.symbol hname, .nil, .number (by decide), List.forall_mem_nil _⟩
    rw [read_sources.1 _ hwritable]
    simp [mapLeaves, rereadLeaf, unsignZero, hzero]
  · have htokens : Cursor.ofText "a......\n-0" =
        ⟨[.atom "a......".toList, .atom "-0".toList], none⟩ := by decide +kernel
    have hnumeral : Numeral.ofText? "-0".toList = some ⟨true, ['0'], [], 0⟩ := rfl
    have hvalue : Numeral.value ⟨true, ['0'], [], 0⟩ = -0.0 := by decide
    have hread : read "a......\n-0" =
        .ok [.symbol ⟨"a...", true⟩, .number (-0.0)] := by
      rw [read_eq_ok, ofCursor_eq_iff, htokens]
      refine ⟨rfl, .cons (.atom hname) (.cons (.atom ?_) .nil)⟩
      rw [ofAtom?_of_numeral hnumeral, hvalue]
    have hfinite : NoOverflow (Cursor.ofText "a......\n-0").tokens := by
      intro cs n hcs hn
      rw [htokens] at hcs
      simp only [List.mem_cons, Token.atom.injEq, List.not_mem_nil, or_false] at hcs
      rcases hcs with rfl | rfl
      · cases hn
      · rw [hnumeral] at hn
        cases hn
        rw [hvalue]
        decide
    rw [read_sources.2 _ _ hread hfinite]
    simp [mapLeaves, unsignZero, hzero]

end DynamicLisp
