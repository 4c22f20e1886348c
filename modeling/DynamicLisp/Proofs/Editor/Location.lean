import DynamicLisp.Editor.Position
import DynamicLisp.Proofs.Editor.Places
import Mathlib.Data.List.Induction

/-! The positions of tokens. A position tells the line and the column of a place in a text, where lines
end with `\n` (`locates_of_place`). -/
namespace DynamicLisp.Editor

/-- The position is that of the text, which starts behind so many characters. Lines end with `\n`. -/
def Position.Locates (p : Position) (text : List Char) (start : Nat) (cs : List Char) : Prop :=
  ∃ before line after, cs = before ++ line ++ text ++ after ∧ (before ++ line).length = start ∧
    (∀ c ∈ before.getLast?, c = '\n') ∧ '\n' ∉ line ∧ p = ⟨before.count '\n', line.length⟩

/-- A text is cut behind the last end of a line in it. -/
theorem exists_last_line (cs : List Char) : ∃ before line, cs = before ++ line ∧
    (∀ c ∈ before.getLast?, c = '\n') ∧ '\n' ∉ line ∧
    cs.foldl Position.next ⟨0, 0⟩ = ⟨before.count '\n', line.length⟩ := by
  induction cs using List.reverseRecOn with
  | nil => exact ⟨[], [], rfl, nofun, List.not_mem_nil, rfl⟩
  | append_singleton cs c ih =>
    obtain ⟨before, line, rfl, hbefore, hline, hp⟩ := ih
    rw [List.foldl_append, hp]
    by_cases hc : c = '\n'
    · subst hc
      refine ⟨before ++ line ++ ['\n'], [], (List.append_nil _).symm, ?_, List.not_mem_nil, ?_⟩
      · simp
      · simp [Position.next, List.count_eq_zero_of_not_mem hline]
    · refine ⟨before, line ++ [c], List.append_assoc .., hbefore, ?_, ?_⟩
      · simp [hline, Ne.symm hc]
      · simp [Position.next, hc]

theorem Position.ofOffset_locates (front text rest : List Char) :
    (Position.ofOffset (front ++ (text ++ rest)) front.length).Locates text front.length
      (front ++ (text ++ rest)) := by
  obtain ⟨before, line, rfl, hbefore, hline, hp⟩ := exists_last_line front
  refine ⟨before, line, rest, (List.append_assoc ..).symm, rfl, hbefore, hline, ?_⟩
  rw [Position.ofOffset, List.take_left]
  exact hp

/-- What the scanner finds at a place is located by the position of its start. -/
theorem locates_of_place {cs : List Char} {place : Place} (h : place ∈ Cursor.places cs) :
    (Position.ofOffset cs place.start).Locates place.token.text place.start cs := by
  obtain ⟨front, rest, hcs, hstart, -⟩ := (lexes_ofChars cs).stands_at [] place h
  rw [List.nil_append] at hcs
  rw [hstart, hcs]
  exact Position.ofOffset_locates front place.token.text rest

theorem places_of_read {text : String} {ds : List Datum} (hread : read text = .ok ds) :
    (scan text.toList).map Placed.place = Cursor.places text.toList ∧
      Sequence ((scan text.toList).map (·.token)) ds := by
  obtain ⟨hfault, hs⟩ := ofCursor_eq_iff.1 (read_eq_ok.1 hread)
  have hn := not_takesNewline_of_consume (consume_sequence hs)
  refine ⟨scan_tokens hfault hn, ?_⟩
  rwa [map_token_scan hfault hn]

end DynamicLisp.Editor
