import DynamicLisp.Proofs.Reader.Earliest
import DynamicLisp.Proofs.Reader.Lexical
import DynamicLisp.Session.Basic

/-! Texts put together line by line. They are read and evaluated one after the other
(`evalText_joined`). -/
namespace DynamicLisp

open Cursor (prepend)

variable {limit : Nat} {s t : String} {ds : List Datum}

theorem ofText_newline (h : (Cursor.ofText s).fault = none) (t : String) :
    Cursor.ofText (s ++ "\n" ++ t) = prepend (Cursor.ofText s).tokens (Cursor.ofText t) := by
  have hlexes := (lexes_ofChars s.toList).newline h (lexes_ofChars t.toList)
  have htext : (s ++ "\n" ++ t).toList = s.toList ++ '\n' :: t.toList := by simp
  rw [Cursor.ofText, htext, hlexes.eq]
  rfl

/-- The expressions of the first text come before those of the second one. -/
theorem script_newline (h : read s = .ok ds) (t : String) : Script.ofText (s ++ "\n" ++ t) =
    ⟨ds ++ (Script.ofText t).exprs, (Script.ofText t).fault⟩ := by
  obtain ⟨hfault, hs⟩ := ofCursor_eq_iff.1 (read_eq_ok.1 h)
  have hcollect := collect_append (Cursor.ofText t).fault (Cursor.ofText t).tokens
    (consume_sequence hs)
  have htext := ofText_newline hfault t
  change (Script.ofCursor (Cursor.ofText (s ++ "\n" ++ t))).1 = _
  rw [htext]
  exact congrArg Prod.fst hcollect

namespace Session

theorem evalExprs_append (result : Datum) (ds es : List Datum) : evalExprs limit result (ds ++ es) =
    evalExprs limit result ds >>= fun v => evalExprs limit v es := by
  induction ds generalizing result with
  | nil => rfl
  | cons d ds ih => simp [evalExprs, ih]

/-- The given result is that of no expressions only. -/
theorem evalExprs_result (result : Datum) (ds : List Datum) : evalExprs limit result ds = do
    let v ← evalExprs limit .empty ds
    return if ds.isEmpty then result else v := by
  cases ds with
  | nil => rfl
  | cons d ds => simp [evalExprs]

theorem evalText_newline (h : read s = .ok ds) (t : String) : evalText limit (s ++ "\n" ++ t) = do
    let v ← evalText limit s
    let v' ← evalText limit t
    return if (Script.ofText t).exprs.isEmpty then v else v' := by
  rw [evalText, evalText, evalText, script_newline h, ofText_of_read h]
  generalize Script.ofText t = script
  obtain ⟨es, fault⟩ := script
  simp only [evalExprs_append, bind_assoc, pure_bind]
  congr 1
  funext v
  rw [evalExprs_result v, bind_assoc]
  cases fault with
  | none => simp
  | some e => rfl

/-- Evaluates texts one after the other, up to the first that fails. -/
def evalTexts (limit : Nat) : List String → Action Unit
  | [] => return ()
  | text :: texts => do
    let _ ← evalText limit text
    evalTexts limit texts

theorem evalText_empty : evalText limit "" = return .empty := by
  have htext : Script.ofText "" = ⟨[], none⟩ := by
    have hnil := Lexes.nil.eq
    rw [Script.ofText, Script.ofChars, String.toList_empty, hnil]
    rfl
  rw [evalText, htext]
  rfl

theorem evalTexts_eq {lines : List String} (h : ∀ l ∈ lines, ∃ ds, read l = .ok ds) :
    evalTexts limit lines = do
      let _ ← evalText limit ("\n".intercalate lines)
      return () := by
  induction lines with
  | nil =>
    rw [String.intercalate_nil, evalText_empty]
    rfl
  | cons line lines ih =>
    obtain ⟨⟨ds, hread⟩, hlines⟩ := List.forall_mem_cons.1 h
    rw [evalTexts, ih hlines]
    cases lines with
    | nil => simp [evalText_empty]
    | cons next lines =>
      rw [String.intercalate_cons_cons, evalText_newline hread]
      simp

/-- A text whose first part can be read is evaluated as that part and then, unless it fails, the
rest, whose result counts if there are expressions in it. So lines that can be read leave the same
world and fail alike, be they evaluated one by one or all together. Behind that is that the tokens
of the parts come one after the other. -/
theorem evalText_joined (limit : Nat) :
    (∀ s t, (Cursor.ofText s).fault = none → Cursor.ofText (s ++ "\n" ++ t) =
      ⟨(Cursor.ofText s).tokens ++ (Cursor.ofText t).tokens, (Cursor.ofText t).fault⟩) ∧
    (∀ s t ds, read s = .ok ds → evalText limit (s ++ "\n" ++ t) = do
      let v ← evalText limit s
      let v' ← evalText limit t
      return if (Script.ofText t).exprs.isEmpty then v else v') ∧
    (∀ lines, (∀ l ∈ lines, ∃ ds, read l = .ok ds) → evalTexts limit lines = do
      let _ ← evalText limit ("\n".intercalate lines)
      return ()) :=
  ⟨fun _ t h => ofText_newline h t, fun _ t _ h => evalText_newline h t, fun _ h => evalTexts_eq h⟩

/-- A comment with a double quote before a string without an end. -/
theorem evalText_joined_comment :
    read "x ; \"" = .ok [.name "x"] ∧
    Cursor.ofText ("x ; \"" ++ "\n" ++ "'[y \"") =
      ⟨[.atom ['x'], .quote, .opening .square, .atom ['y']], some .unterminatedString⟩ ∧
    evalText 9 ("x ; \"" ++ "\n" ++ "'[y \"") = (do
      let v ← evalText 9 "x ; \""
      let v' ← evalText 9 "'[y \""
      return if (Script.ofText "'[y \"").exprs.isEmpty then v else v') ∧
    evalTexts 9 ["x ; \"", "x ; \""] = do
      let _ ← evalText 9 "x ; \"\nx ; \""
      return () := by
  have hfirst : Cursor.ofText "x ; \"" = ⟨[.atom ['x']], none⟩ := by decide +kernel
  have hsecond : Cursor.ofText "'[y \"" =
      ⟨[.quote, .opening .square, .atom ['y']], some .unterminatedString⟩ := by decide +kernel
  have hread : read "x ; \"" = .ok [.name "x"] := by
    rw [read_eq_ok, ofCursor_eq_iff, hfirst]
    exact ⟨rfl, .cons (.atom rfl) .nil⟩
  obtain ⟨htokens, hpieces, hlines⟩ := evalText_joined 9
  refine ⟨hread, ?_, hpieces _ _ _ hread, hlines ["x ; \"", "x ; \""] ?_⟩
  · rw [htokens _ _ (by rw [hfirst]), hfirst, hsecond]
    rfl
  · simp [hread]

end Session

end DynamicLisp
