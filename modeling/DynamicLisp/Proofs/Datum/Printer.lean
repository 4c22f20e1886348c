import DynamicLisp.Datum.Printer
import DynamicLisp.Proofs.Datum.Conversion

/-! The two texts of a datum beside each other. They differ in the strings that are reached through
lists alone, and the text that can be read back is longer by what quoting these takes
(`source_display`). -/
namespace DynamicLisp

/-- The characters that a backslash stands before in a written string. -/
def isEscaped (c : Char) : Bool := c ∈ ['\\', '"', '\n', '\t', '\r']

/-- The characters that are written in addition to those of a string: the double quotes around it and
the backslashes in it. -/
def quoting (s : String) : Nat := 2 + s.toList.countP isEscaped

theorem length_escape (c : Char) : (escape c).length = if isEscaped c then 2 else 1 := by
  unfold escape isEscaped
  split <;> simp_all

theorem length_flatMap_escape (cs : List Char) :
    (cs.flatMap escape).length = cs.length + cs.countP isEscaped := by
  induction cs with
  | nil => rfl
  | cons c cs ih =>
    rw [List.flatMap_cons, List.length_append, length_escape, ih, List.length_cons, List.countP_cons]
    split <;> omega

theorem length_quoted (s : String) : (quoted s).length = s.length + quoting s := by
  rw [quoted, String.length_ofList, List.cons_append, List.length_cons, List.length_append,
    length_flatMap_escape, String.length_toList, quoting, List.length_singleton]
  omega

theorem length_spaced (texts : List String) : (" ".intercalate texts).length =
    (texts.map String.length).sum + (texts.length - 1) := by
  induction texts with
  | nil => rfl
  | cons s texts ih =>
    cases texts with
    | nil => simp
    | cons t texts =>
      have hspace : " ".length = 1 := rfl
      rw [String.intercalate_cons_cons, String.length_append, String.length_append, ih, hspace]
      simp only [List.map_cons, List.sum_cons, List.length_cons]
      omega

namespace Datum

/-- A datum is reached from another one through lists alone. -/
inductive Reaches : Datum → Datum → Prop
  | self (d : Datum) : Reaches d d
  | item {d e : Datum} {items : List Datum} : d ∈ items → Reaches d e → Reaches (.list items) e

mutual

/-- The strings that are reached through lists alone, from left to right. -/
def strings : Datum → List String
  | string s => [s]
  | list items => stringsIn items
  | _ => []

def stringsIn : List Datum → List String
  | [] => []
  | d :: ds => strings d ++ stringsIn ds

end

/-- What is quoted and the fields of a struct are not reached. -/
example : strings (.list [.string "a", .quote (.string "b"), .struct "P" [.string "c"]]) = ["a"] := rfl

variable {d : Datum} {s : String}

theorem stringsIn_eq_flatMap (ds : List Datum) : stringsIn ds = ds.flatMap strings := by
  induction ds with
  | nil => rfl
  | cons d ds ih => rw [stringsIn, List.flatMap_cons, ih]

theorem mem_strings : s ∈ strings d ↔ Reaches d (.string s) := by
  constructor
  · intro h
    induction d using Datum.induction with
    | string t =>
      obtain rfl : s = t := List.mem_singleton.1 h
      exact .self _
    | list items ih =>
      rw [strings, stringsIn_eq_flatMap] at h
      obtain ⟨d, hd, hs⟩ := List.mem_flatMap.1 h
      exact .item hd (ih d hd hs)
    | _ => cases h
  · intro h
    generalize hs : Datum.string s = e at h
    induction h with
    | self =>
      subst hs
      exact List.mem_singleton_self s
    | item hd _ ih =>
      rw [strings, stringsIn_eq_flatMap]
      exact List.mem_flatMap.2 ⟨_, hd, ih hs⟩

theorem strings_eq_nil : strings d = [] ↔ ∀ s, ¬ Reaches d (.string s) := by
  rw [List.eq_nil_iff_forall_not_mem]
  exact forall_congr' fun s => not_congr mem_strings

/-- Without a string that is reached through lists, there is one text. -/
theorem display_of_strings_nil (h : strings d = []) : d.display = d.source := by
  induction d using Datum.induction with
  | string s => cases h
  | list items ih =>
    rw [strings, stringsIn_eq_flatMap, List.flatMap_eq_nil_iff] at h
    have hitems : items.map display = items.map source :=
      List.map_congr_left fun d hd => ih d hd (h d hd)
    rw [display, source, displays_eq_map, sources_eq_map, hitems]
  | _ => rfl

theorem length_sources {ds : List Datum}
    (h : ∀ d ∈ ds, d.source.length = d.display.length + ((strings d).map quoting).sum) :
    ((ds.map source).map String.length).sum =
      ((ds.map display).map String.length).sum + ((stringsIn ds).map quoting).sum := by
  induction ds with
  | nil => rfl
  | cons d ds ih =>
    obtain ⟨hd, hds⟩ := List.forall_mem_cons.1 h
    simp only [List.map_cons, List.sum_cons, stringsIn, List.map_append, List.sum_append]
    rw [hd, ih hds]
    omega

/-- The text that can be read back is longer by what quoting the strings takes. -/
theorem length_source (d : Datum) :
    d.source.length = d.display.length + ((strings d).map quoting).sum := by
  induction d using Datum.induction with
  | string s =>
    rw [source, display, length_quoted]
    simp [strings]
  | list items ih =>
    simp only [source, display, sources_eq_map, displays_eq_map, inParens, String.length_append,
      length_spaced, List.length_map, strings, length_sources ih]
    omega
  | _ => simp [source, display, strings]

/-- The two texts of a datum are the same exactly if no string is reached from it through lists alone.
Otherwise the text that can be read back is the longer one, by the double quotes and the backslashes
of all strings that are reached. -/
theorem source_display (d : Datum) :
    (d.display = d.source ↔ ∀ s, ¬ Reaches d (.string s)) ∧
    (d.display ≠ d.source → d.display.length < d.source.length) ∧
    d.source.length = d.display.length + ((strings d).map quoting).sum := by
  have hlength := length_source d
  have hpos : strings d ≠ [] → d.display.length < d.source.length := by
    intro hne
    obtain ⟨s, ss, hs⟩ := List.exists_cons_of_ne_nil hne
    rw [hs, List.map_cons, List.sum_cons, quoting] at hlength
    omega
  refine ⟨?_, fun hne => hpos fun hnil => hne (display_of_strings_nil hnil), hlength⟩
  rw [← strings_eq_nil]
  refine ⟨fun heq => ?_, display_of_strings_nil⟩
  by_contra hne
  have hlt := hpos hne
  rw [heq] at hlt
  exact Nat.lt_irrefl _ hlt

end Datum

end DynamicLisp
