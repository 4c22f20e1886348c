import DynamicLisp.Proofs.Reader.Earliest
import DynamicLisp.Session.Basic

/-! Loading a file and evaluating its text. Nothing of a file is evaluated that cannot be read to
its end, while of a text everything is that stands before the error (`load_evalText`). -/
namespace DynamicLisp

/-- The name stands for a file that holds the text. -/
def Host.Holds (h : Host) (name text : String) : Prop :=
  ∃ p, h.resolve? name = .ok (some p) ∧ h.files.content p = .ok text

/-- The complete expressions that tokens start with, as many as there are. -/
structure Completed (ts : List Token) (ds : List Datum) : Prop where
  derived : ∃ us, us <+: ts ∧ Sequence us ds
  maximal : ∀ us es, us <+: ts → Sequence us es → es <+: ds

theorem completed_of_consume {ts : List Token} {ds : List Datum} {fs : List Frame}
    (h : consume [] ts = .ok (ds, fs)) : Completed ts ds := by
  constructor
  · obtain ⟨us, vs, hts, hs, -⟩ := sequence_of_consume .nil h
    exact ⟨us, ⟨vs, hts.symm⟩, hs⟩
  · rintro us es ⟨vs, rfl⟩ hs
    obtain ⟨_, _, gs, hus, -, rfl⟩ := consume_append.1 h
    rw [consume_sequence hs] at hus
    cases hus
    exact ⟨gs, rfl⟩

/-- The expressions before an error are all that are complete before the signal that raises it. -/
theorem exists_fault {c : Cursor} {ds : List Datum} {e : ReadError}
    (h : (Script.ofCursor c).1 = ⟨ds, some e⟩) :
    ∃ i s, c.signals[i]? = some s ∧ s.Raises e ∧ (∀ j, Viable (c.signals.take j) ↔ j ≤ i) ∧
      Completed (c.tokens.take i) ds := by
  obtain ⟨es, fs, hc⟩ | ⟨ts, t, us, es, fs, e', hts, hc, he⟩ := consume_or_feed [] c.tokens
  · rw [ofCursor_of_consume hc] at h
    injection h with hes hfault
    subst hes
    obtain ⟨s, hs, hr, hv, hn⟩ := earliest_end hc hfault
    refine ⟨c.tokens.length, s, hs, hr, viable_take_iff hv hn, ?_⟩
    rw [List.take_length]
    exact completed_of_consume hc
  · obtain ⟨hread, hs, hv, hn⟩ := earliest_token hts hc he
    rw [hread] at h
    cases h
    refine ⟨ts.length, .token t, hs, raises_of_feed he, viable_take_iff hv hn, ?_⟩
    rw [hts, List.take_left]
    exact completed_of_consume hc

theorem unifyLineEnds_eq {cs : List Char} (h : '\r' ∉ cs) : Text.unifyLineEnds cs = cs := by
  fun_induction Text.unifyLineEnds cs with
  | case1 => rfl
  | case2 cs ih => simp at h
  | case3 cs _ ih => simp at h
  | case4 c cs _ _ ih =>
    have hcs : '\r' ∉ cs := fun hmem => h (List.mem_cons_of_mem c hmem)
    rw [ih hcs]

/-- Evaluating one by one is evaluating all and dropping the values. -/
theorem evaluateEach_eq (ev : Evaluator) (ds : List Datum) : evaluateEach ev ds = do
    let _ ← evaluateAll ev ds
    return () := by
  induction ds with
  | nil => rfl
  | cons d ds ih => simp [evaluateEach, evaluateAll, ih]

namespace Session

variable {limit : Nat} {w : World} {name t : String} {p : Path} {ds : List Datum} {e : ReadError}

theorem evalExprs_eq (result : Datum) (ds : List Datum) : evalExprs limit result ds = do
    let vs ← evaluateAll (evaluate limit) ds
    return vs.getLast?.getD result := by
  induction ds generalizing result with
  | nil => rfl
  | cons d ds ih => simp [evalExprs, evaluateAll, ih, List.getLast?_cons]

theorem evalText_ok (h : read t = .ok ds) : evalText limit t = do
    let vs ← evaluateAll (evaluate limit) ds
    return vs.getLast?.getD .empty := by
  simp [evalText, ofText_of_read h, evalExprs_eq]

theorem evalText_error (h : Script.ofText t = ⟨ds, some e⟩) : evalText limit t = (do
    let _ ← evaluateAll (evaluate limit) ds
    Action.fail (.malformed e)) := by
  simp [evalText, h, evalExprs_eq]

theorem load_of_holds (h : w.host.Holds name t) (hreturn : '\r' ∉ t.toList) :
    load limit name w = (do
      let exprs ← readSource t.toList
      evaluateEach (evaluate limit) exprs
      return Datum.empty : Action Datum) w := by
  obtain ⟨p, hresolve, hcontent⟩ := h
  have hread : w.host.files.read p = .ok t.toList := by
    rw [FileSystem.read, hcontent]
    exact congrArg Except.ok (unifyLineEnds_eq hreturn)
  rw [load, Action.bind_apply, resolveFile_apply, hresolve]
  dsimp only
  rw [importFile_apply, hread]

theorem readSource_eq (t : String) : readSource t.toList = (read t).mapError .malformed := rfl

theorem load_ok (hholds : w.host.Holds name t) (hreturn : '\r' ∉ t.toList) (h : read t = .ok ds) :
    load limit name w = ((evalText limit t w).1.map fun _ => .empty, (evalText limit t w).2) := by
  have hload : load limit name w = (do
      let _ ← evaluateAll (evaluate limit) ds
      return Datum.empty : Action Datum) w := by
    rw [load_of_holds hholds hreturn, readSource_eq, h]
    change (evaluateEach (evaluate limit) ds >>= fun _ => return Datum.empty) w = _
    rw [evaluateEach_eq, bind_assoc]
    rfl
  rw [hload, evalText_ok h, Action.bind_apply, Action.bind_apply]
  obtain ⟨_ | _, _⟩ := evaluateAll (evaluate limit) ds w <;> rfl

theorem load_error (hholds : w.host.Holds name t) (hreturn : '\r' ∉ t.toList)
    (h : read t = .error e) : load limit name w = (.error (.error (.malformed e)), w) := by
  rw [load_of_holds hholds hreturn, readSource_eq, h]
  rfl

/-- A file that can be read is loaded with the effects and failures of evaluating its text, of which
only the result is dropped. Of a text with an error all expressions are evaluated that are complete
before it, and then, unless one of them fails, the error is raised; loading the file raises the
error and leaves the world as it is. -/
theorem load_evalText (limit : Nat) (hholds : w.host.Holds name t) (hreturn : '\r' ∉ t.toList) :
    (∀ ds, read t = .ok ds →
      load limit name w = ((evalText limit t w).1.map fun _ => .empty, (evalText limit t w).2) ∧
      evalText limit t = do
        let vs ← evaluateAll (evaluate limit) ds
        return vs.getLast?.getD .empty) ∧
    (∀ e, read t = .error e →
      load limit name w = (.error (.error (.malformed e)), w) ∧
      ∃ i s ds, (Cursor.ofText t).signals[i]? = some s ∧ s.Raises e ∧
        (∀ j, Viable ((Cursor.ofText t).signals.take j) ↔ j ≤ i) ∧
        Completed ((Cursor.ofText t).tokens.take i) ds ∧
        evalText limit t = (do
          let _ ← evaluateAll (evaluate limit) ds
          Action.fail (.malformed e))) := by
  refine ⟨fun ds h => ⟨load_ok hholds hreturn h, evalText_ok h⟩, fun e h => ?_⟩
  refine ⟨load_error hholds hreturn h, ?_⟩
  obtain ⟨ds, hscript⟩ : ∃ ds, Script.ofText t = ⟨ds, some e⟩ :=
    ⟨_, congrArg (Script.mk _) (read_eq_error.1 h)⟩
  obtain ⟨i, s, hs, hr, hv, hds⟩ := exists_fault hscript
  exact ⟨i, s, ds, hs, hr, hv, hds, evalText_error hscript⟩

/-- A definition before a list that is not closed. -/
theorem load_evalText_unclosed :
    let text := "(define x #t) [x"
    let w := (start 9 false ⟨(FileSystem.atLocation []).addFile ["a.rl"] text, [], "", []⟩).2
    w.host.Holds "a.rl" text ∧ '\r' ∉ text.toList ∧ read text = .error .endInList ∧
      load 9 "a.rl" w = (.error (.error (.malformed .endInList)), w) ∧
      (∃ i ds, Completed ((Cursor.ofText text).tokens.take i) ds ∧ evalText 9 text = (do
        let _ ← evaluateAll (evaluate 9) ds
        Action.fail (.malformed .endInList))) ∧
      ((evalText 9 text w).2.environment.get? "x").isSome := by
  intro text w
  have hholds : w.host.Holds "a.rl" text :=
    ⟨Path.ofText "a.rl", by decide +kernel, rfl⟩
  have hreturn : '\r' ∉ text.toList := by decide
  have hread : read text = .error .endInList := by
    rw [read_eq_error]
    decide +kernel
  obtain ⟨hload, i, s, ds, -, -, -, hds, heval⟩ := (load_evalText 9 hholds hreturn).2 _ hread
  exact ⟨hholds, hreturn, hread, hload, ⟨i, ds, hds, heval⟩, by decide +kernel⟩

end Session

end DynamicLisp
