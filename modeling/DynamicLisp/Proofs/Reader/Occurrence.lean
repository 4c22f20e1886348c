import DynamicLisp.Proofs.Reader.Atom
import DynamicLisp.Proofs.Reader.Grammar

/-! Where an expression stands among those of a text. However deep it is nested, it is written by a
stretch of the tokens (`Starts.exists_stretch`). -/
namespace DynamicLisp

namespace Datum

mutual

/-- The number of tokens with which an expression is written. -/
def width : Datum → Nat
  | quote d => width d + 1
  | list ds => widths ds + 2
  | _ => 1

def widths : List Datum → Nat
  | [] => 0
  | d :: ds => width d + widths ds

end

end Datum

/-- The expression stands among expressions, at any depth and also under quotes, with so many tokens
before it. -/
inductive Starts : List Datum → Nat → Datum → Prop
  | here (d : Datum) (ds : List Datum) : Starts (d :: ds) 0 d
  | later (d : Datum) {ds : List Datum} {k : Nat} {e : Datum} :
    Starts ds k e → Starts (d :: ds) (d.width + k) e
  | quoted {d : Datum} (ds : List Datum) {k : Nat} {e : Datum} :
    Starts [d] k e → Starts (.quote d :: ds) (1 + k) e
  | item {items : List Datum} (ds : List Datum) {k : Nat} {e : Datum} :
    Starts items k e → Starts (.list items :: ds) (1 + k) e

mutual

theorem Expression.length_eq {ts : List Token} {d : Datum} :
    Expression ts d → ts.length = d.width
  | .atom h => by obtain ⟨b, -, rfl⟩ | ⟨n, -, rfl⟩ | ⟨s, -, rfl⟩ := ofAtom?_cases h <;> rfl
  | .string _ => rfl
  | .quote h => by rw [List.length_cons, h.length_eq, Datum.width]
  | .list b h => by
    rw [List.length_append, List.length_cons, h.length_eq, Datum.width]
    rfl

theorem Sequence.length_eq {ts : List Token} {ds : List Datum} :
    Sequence ts ds → ts.length = Datum.widths ds
  | .nil => rfl
  | .cons he hs => by rw [List.length_append, he.length_eq, hs.length_eq, Datum.widths]

end

theorem Expression.exists_sequence {ts : List Token} {ds : List Datum} (h : Expression ts (.list ds)) :
    ∃ b us, ts = .opening b :: us ++ [.closing b] ∧ Sequence us ds := by
  cases h with
  | atom h => obtain ⟨b, -, hd⟩ | ⟨n, -, hd⟩ | ⟨s, -, hd⟩ := ofAtom?_cases h <;> cases hd
  | list b h => exact ⟨b, _, rfl, h⟩

theorem Expression.exists_quoted {ts : List Token} {d : Datum} (h : Expression ts (.quote d)) :
    ∃ us, ts = .quote :: us ∧ Expression us d := by
  cases h with
  | atom h => obtain ⟨b, -, hd⟩ | ⟨n, -, hd⟩ | ⟨s, -, hd⟩ := ofAtom?_cases h <;> cases hd
  | quote h => exact ⟨_, rfl, h⟩

theorem Symbol.text_of_unmarked {s : Symbol} (h : s.variadic = false) : s.text = s.name := by
  rw [Symbol.text, h]
  rfl

theorem Expression.symbol_tokens {ts : List Token} {s : Symbol} (h : Expression ts (.symbol s)) :
    ts = [.atom s.text.toList] := by
  cases h with
  | atom h =>
    obtain ⟨b, -, hd⟩ | ⟨n, -, hd⟩ | ⟨s', hs, hd⟩ := ofAtom?_cases h <;> cases hd
    rw [(text_of_ofText? hs).1]

theorem Sequence.exists_cons {ts : List Token} {d : Datum} {ds : List Datum}
    (h : Sequence ts (d :: ds)) : ∃ us vs, ts = us ++ vs ∧ Expression us d ∧ Sequence vs ds := by
  cases h with
  | cons hd hds => exact ⟨_, _, rfl, hd, hds⟩

theorem Sequence.symbol_tokens {ts : List Token} {ss : List Symbol}
    (h : Sequence ts (ss.map .symbol)) : ts = ss.map fun s => .atom s.text.toList := by
  induction ss generalizing ts with
  | nil =>
    cases h
    rfl
  | cons s ss ih =>
    obtain ⟨us, vs, rfl, hs, hss⟩ := h.exists_cons
    rw [hs.symbol_tokens, ih hss, List.map_cons, List.singleton_append]

/-- What stands among expressions is written by a stretch of their tokens. -/
theorem Starts.exists_stretch {ts : List Token} {ds : List Datum} {k : Nat} {e : Datum}
    (h : Starts ds k e) (hs : Sequence ts ds) :
    ∃ before form after, ts = before ++ (form ++ after) ∧ before.length = k ∧ Expression form e := by
  induction h generalizing ts with
  | here d ds =>
    obtain ⟨us, vs, rfl, hd, -⟩ := hs.exists_cons
    exact ⟨[], us, vs, rfl, rfl, hd⟩
  | later d _ ih =>
    obtain ⟨us, vs, rfl, hd, hds⟩ := hs.exists_cons
    obtain ⟨before, form, after, rfl, rfl, he⟩ := ih hds
    refine ⟨us ++ before, form, after, (List.append_assoc ..).symm, ?_, he⟩
    rw [List.length_append, hd.length_eq]
  | quoted ds _ ih =>
    obtain ⟨us, vs, rfl, hd, -⟩ := hs.exists_cons
    obtain ⟨us, rfl, hquoted⟩ := hd.exists_quoted
    obtain ⟨before, form, after, rfl, rfl, he⟩ := ih hquoted.sequence
    refine ⟨.quote :: before, form, after ++ vs, by simp, ?_, he⟩
    rw [List.length_cons, Nat.add_comm]
  | item ds _ ih =>
    obtain ⟨us, vs, rfl, hd, -⟩ := hs.exists_cons
    obtain ⟨b, us, rfl, hitems⟩ := hd.exists_sequence
    obtain ⟨before, form, after, rfl, rfl, he⟩ := ih hitems
    refine ⟨.opening b :: before, form, after ++ .closing b :: vs, by simp, ?_, he⟩
    rw [List.length_cons, Nat.add_comm]

end DynamicLisp
