import DynamicLisp.Evaluation.Evaluate
import Mathlib.Data.List.Induction
import DynamicLisp.Proofs.Evaluation.Frame

/-! Environments by their history. A binding lives as long as the scope in which it was made, and what a
name has is the latest of its living bindings in the innermost scope that has one
(`lookup_history`). -/
namespace DynamicLisp

theorem Table.find?_update {κ α : Type} [DecidableEq κ] (t : Table κ α) (bindings : List (κ × α))
    (x : κ) : (t.update bindings).find? x = (bindings.reverse.lookup x).or (t.find? x) := by
  induction bindings generalizing t with
  | nil => rfl
  | cons b bindings ih =>
    have hstep : t.update (b :: bindings) = (t.set b.1 b.2).update bindings := rfl
    rw [hstep, ih, find?_set, List.reverse_cons, List.lookup_append, Option.or_assoc, List.lookup_cons]
    congr 1
    by_cases hx : b.1 = x
    · simp [hx]
    · have hne : (x == b.1) = false := by simpa using Ne.symm hx
      simp [hx, hne]

namespace Environment

/-- The value of a name, or the failure to report. -/
def lookup (e : Environment) (x : String) : Except LispError Datum :=
  (e.get? x).elim (.error (.unbound x)) .ok

def lookupSuper (e : Environment) (x : String) : Except LispError Datum :=
  (e.getSuper? x).elim (.error (.unbound x)) .ok

/-- The evaluator looks identifiers up in these two ways. -/
theorem resolve_eq (e : Environment) (name : String) :
    e.resolve name = match superName? name with
      | some outer => e.lookupSuper outer
      | none => e.lookup name := rfl

/-! ### Histories -/

inductive Operation
  | enter
  | exit
  | define (x : String) (d : Datum)
  | update (bindings : List (String × Datum))

namespace Operation

/-- The environment behind an operation. There is none if the base is to be left. -/
def attempt (e : Environment) : Operation → Option Environment
  | enter => some e.enter
  | exit => e.exit?
  | define x d => some (e.define x d)
  | update bindings => some (e.update bindings)

def bindings : Operation → List (String × Datum)
  | define x d => [(x, d)]
  | update bindings => bindings
  | enter | exit => []

/-- What the operation binds a name to. The last binding counts. -/
def given? (o : Operation) (x : String) : Option Datum := o.bindings.reverse.lookup x

end Operation

/-- The environment that operations leave behind. One that fails changes nothing. -/
def run (e : Environment) (os : List Operation) : Environment :=
  os.foldl (fun e o => (o.attempt e).getD e) e

/-- The level of the scope that is innermost behind the operations. The base has level 0, and no
operation leads below it. -/
def level (os : List Operation) : Nat :=
  os.foldl (fun n o => match o with
    | .enter => n + 1
    | .exit => n - 1
    | .define .. | .update _ => n) 0

/-- A binding that has been made: the level of the scope that was innermost then, the number of
operations before it, and the value. -/
structure Entry where
  level : Nat
  time : Nat
  value : Datum

/-- The entry was made for the name, and its scope has not been left since: the innermost scope has at no
time been one further out. -/
def Live (os : List Operation) (x : String) (entry : Entry) : Prop :=
  ∃ before o later, os = before ++ o :: later ∧ o.given? x = some entry.value ∧
    entry.level = level before ∧ entry.time = before.length ∧
    ∀ mid, mid <+: later → level before ≤ level (before ++ o :: mid)

/-- The value of the latest entry in the innermost scope, of those that are admitted, or nothing if none
is. -/
inductive Decides (admitted : Entry → Prop) : Option Datum → Prop
  | latest (entry : Entry) : admitted entry →
    (∀ other, admitted other →
      other.level < entry.level ∨ other.level = entry.level ∧ other.time ≤ entry.time) →
    Decides admitted (some entry.value)
  | nothing : (∀ entry, ¬ admitted entry) → Decides admitted none

/-- Operations that leave every scope that they enter, and none that was entered before them. -/
inductive Balanced : List Operation → Prop
  | nil : Balanced []
  | define (x : String) (d : Datum) : Balanced [.define x d]
  | update (bindings : List (String × Datum)) : Balanced [.update bindings]
  | scope {body : List Operation} : Balanced body → Balanced (.enter :: body ++ [.exit])
  | append {os os' : List Operation} : Balanced os → Balanced os' → Balanced (os ++ os')

variable {os os' : List Operation} {o : Operation} {x : String} {entry : Entry} {e : Environment}

@[simp] theorem run_append (e : Environment) (os os' : List Operation) :
    e.run (os ++ os') = (e.run os).run os' := List.foldl_append

theorem run_singleton (e : Environment) (o : Operation) : e.run [o] = (o.attempt e).getD e := rfl

@[simp] theorem level_enter (os : List Operation) : level (os ++ [.enter]) = level os + 1 := by
  simp [level]

@[simp] theorem level_exit (os : List Operation) : level (os ++ [.exit]) = level os - 1 := by
  simp [level]

theorem level_of_given {d : Datum} (h : o.given? x = some d) : level (os ++ [o]) = level os := by
  cases o with
  | enter | exit => cases h
  | define | update => simp [level]

theorem Live.level_le (h : Live os x entry) : entry.level ≤ level os := by
  obtain ⟨before, o, later, rfl, -, hlevel, -, hkept⟩ := h
  rw [hlevel]
  exact hkept later List.prefix_rfl

/-- With one operation more, entries of scopes that are left are dropped, and those of the operation are
added. -/
theorem live_concat : Live (os ++ [o]) x entry ↔
    (Live os x entry ∧ entry.level ≤ level (os ++ [o])) ∨
    (o.given? x = some entry.value ∧ entry.level = level os ∧ entry.time = os.length) := by
  constructor
  · intro h
    have hle := h.level_le
    obtain ⟨before, p, later, heq, hgiven, hlevel, htime, hkept⟩ := h
    rcases later.eq_nil_or_concat with rfl | ⟨later, q, rfl⟩
    · obtain ⟨rfl, hp⟩ := List.append_inj' heq rfl
      cases hp
      exact .inr ⟨hgiven, hlevel, htime⟩
    · rw [List.concat_eq_append] at heq hkept
      rw [← List.cons_append, ← List.append_assoc] at heq
      obtain ⟨rfl, hq⟩ := List.append_inj' heq rfl
      have hkept' (mid : List Operation) (hmid : mid <+: later) :
          level before ≤ level (before ++ p :: mid) :=
        hkept mid (hmid.trans (List.prefix_append later [q]))
      exact .inl ⟨⟨before, p, later, rfl, hgiven, hlevel, htime, hkept'⟩, hle⟩
  · rintro (⟨⟨before, p, later, rfl, hgiven, hlevel, htime, hkept⟩, hle⟩ | ⟨hgiven, hlevel, htime⟩)
    · refine ⟨before, p, later ++ [o], by simp, hgiven, hlevel, htime, fun mid hmid => ?_⟩
      rcases List.prefix_concat_iff.1 hmid with rfl | hmid
      · rw [← List.cons_append, ← List.append_assoc, ← hlevel]
        exact hle
      · exact hkept mid hmid
    · refine ⟨os, o, [], rfl, hgiven, hlevel, htime, fun mid hmid => ?_⟩
      obtain rfl := List.prefix_nil.1 hmid
      exact Nat.le_of_eq (level_of_given hgiven).symm

theorem live_concat_of_not_given (h : o.given? x = none) :
    Live (os ++ [o]) x entry ↔ Live os x entry ∧ entry.level ≤ level (os ++ [o]) := by
  simp [live_concat, h]

theorem Live.time_lt (h : Live os x entry) : entry.time < os.length := by
  obtain ⟨before, o, later, rfl, -, -, htime, -⟩ := h
  simp [htime]

/-- An entry is known by its time. -/
theorem Live.value_eq {other : Entry} (h : Live os x entry) (h' : Live os x other)
    (htime : entry.time = other.time) : entry.value = other.value := by
  obtain ⟨before, o, later, heq, hgiven, -, hbefore, -⟩ := h
  obtain ⟨before', o', later', heq', hgiven', -, hbefore', -⟩ := h'
  have hlength : before.length = before'.length := by rw [← hbefore, htime, hbefore']
  obtain ⟨-, htail⟩ := List.append_inj (heq.symm.trans heq') hlength
  cases htail
  exact Option.some.inj (hgiven.symm.trans hgiven')

/-- There is at most one value that is decided. -/
theorem Decides.unique {admitted : Entry → Prop} (hlive : ∀ entry, admitted entry → Live os x entry)
    {r r' : Option Datum} (h : Decides admitted r) (h' : Decides admitted r') : r = r' := by
  cases h with
  | nothing hnone =>
    cases h' with
    | nothing _ => rfl
    | latest entry hentry _ => exact (hnone entry hentry).elim
  | latest entry hentry hlatest =>
    cases h' with
    | nothing hnone => exact (hnone entry hentry).elim
    | latest other hother hlatest' =>
      have h₁ := hlatest other hother
      have h₂ := hlatest' entry hentry
      rw [(hlive entry hentry).value_eq (hlive other hother) (by omega)]

theorem Decides.congr {admitted admitted' : Entry → Prop} {r : Option Datum}
    (h : Decides admitted r) (hiff : ∀ entry, admitted entry ↔ admitted' entry) :
    Decides admitted' r := by
  rwa [← funext fun entry => propext (hiff entry)]

/-! ### Scopes by their entries -/

/-- Each scope of a stack, the innermost first, has what the living entries of its level say. -/
def Described (os : List Operation) (x : String) : List Scope → Prop
  | [] => True
  | s :: outer => Decides (fun entry => Live os x entry ∧ entry.level = outer.length) (s.find? x) ∧
    Described os x outer

theorem Described.congr {scopes : List Scope} (h : Described os x scopes)
    (hiff : ∀ entry, entry.level < scopes.length → (Live os x entry ↔ Live os' x entry)) :
    Described os' x scopes := by
  induction scopes with
  | nil => trivial
  | cons s outer ih =>
    refine ⟨h.1.congr fun entry => and_congr_left fun hlevel => hiff entry ?_,
      ih h.2 fun entry hlevel => hiff entry (Nat.lt_succ_of_lt hlevel)⟩
    rw [hlevel]
    exact Nat.lt_succ_self _

theorem Described.enter {scopes : List Scope} (h : Described os x scopes)
    (hlevel : scopes.length = level os + 1) :
    Described (os ++ [.enter]) x (.empty :: scopes) := by
  have hlive (entry : Entry) : Live (os ++ [.enter]) x entry ↔ Live os x entry := by
    rw [live_concat_of_not_given rfl, level_enter]
    exact and_iff_left_of_imp fun hentry => Nat.le_succ_of_le hentry.level_le
  refine ⟨.nothing fun entry ⟨hentry, heq⟩ => ?_, h.congr fun entry _ => (hlive entry).symm⟩
  have := ((hlive entry).1 hentry).level_le
  omega

theorem Described.exit {scopes : List Scope} (h : Described os x scopes)
    (hlevel : scopes.length = level (os ++ [.exit]) + 1) : Described (os ++ [.exit]) x scopes := by
  refine h.congr fun entry hlt => ?_
  rw [live_concat_of_not_given rfl]
  exact (and_iff_left (by omega)).symm

theorem Described.write {s : Scope} {outer : List Scope} (h : Described os x (s :: outer))
    (hlevel : outer.length = level os) (hsame : level (os ++ [o]) = level os) :
    Described (os ++ [o]) x (s.update o.bindings :: outer) := by
  refine ⟨?_, h.2.congr fun entry hlt => ?_⟩
  · rw [Table.find?_update]
    cases hgiven : o.bindings.reverse.lookup x with
    | some d =>
      refine .latest ⟨level os, os.length, d⟩
        ⟨live_concat.2 (.inr ⟨hgiven, rfl, rfl⟩), hlevel.symm⟩ fun other ⟨hother, heq⟩ => ?_
      have htime := hother.time_lt
      rw [List.length_append] at htime
      exact .inr ⟨heq.trans hlevel, Nat.le_of_lt_succ htime⟩
    | none =>
      refine h.1.congr fun entry => and_congr_left fun _ => ?_
      rw [live_concat_of_not_given hgiven, hsame]
      exact (and_iff_left_of_imp Live.level_le).symm
  · rw [live_concat, hsame]
    constructor
    · intro hentry
      exact .inl ⟨hentry, hentry.level_le⟩
    · rintro (⟨hentry, -⟩ | ⟨-, heq, -⟩)
      · exact hentry
      · omega

theorem scopes_update (e : Environment) (bindings : List (String × Datum)) :
    (e.update bindings).scopes = e.innermost.update bindings :: e.scopes.tail := by
  unfold update modifyInnermost
  split <;> simp_all [scopes, innermost]

theorem scopes_eq_cons (e : Environment) : e.scopes = e.innermost :: e.scopes.tail := by
  unfold scopes innermost
  cases e.inner <;> rfl

theorem exit?_eq_none_iff : e.exit? = none ↔ e.depth = 0 := by
  unfold exit? depth
  split <;> simp_all

theorem scopes_exit {e' : Environment} (h : e.exit? = some e') : e'.scopes = e.scopes.tail := by
  unfold exit? at h
  split at h <;> cases h
  simp_all [scopes]

/-- The stack of scopes is what the history says. -/
theorem described_run (os : List Operation) (x : String) :
    Described os x (empty.run os).scopes ∧ (empty.run os).scopes.length = level os + 1 := by
  induction os using List.reverseRecOn with
  | nil =>
    refine ⟨⟨.nothing fun entry ⟨⟨before, o, later, heq, _⟩, _⟩ => ?_, trivial⟩, rfl⟩
    simp at heq
  | append_singleton os o ih =>
    obtain ⟨hscopes, hlength⟩ := ih
    have htail : (empty.run os).scopes.tail.length = level os := by rw [List.length_tail, hlength]; rfl
    have hwrite (bindings : List (String × Datum)) (ho : o.bindings = bindings)
        (hsame : level (os ++ [o]) = level os) :
        Described (os ++ [o]) x ((empty.run os).update bindings).scopes ∧
          ((empty.run os).update bindings).scopes.length = level (os ++ [o]) + 1 := by
      rw [scopes_eq_cons] at hscopes
      rw [scopes_update, ← ho, hsame, List.length_cons, htail]
      exact ⟨hscopes.write htail hsame, rfl⟩
    rw [run_append, run_singleton]
    cases o with
    | enter =>
      rw [level_enter, ← hlength]
      exact ⟨hscopes.enter hlength, rfl⟩
    | exit =>
      cases hexit : (empty.run os).exit? with
      | none =>
        have hbase : level os = 0 := by
          have := exit?_eq_none_iff.1 hexit
          rw [length_scopes, this] at hlength
          omega
        have hlevel : (empty.run os).scopes.length = level (os ++ [.exit]) + 1 := by
          rw [hlength, level_exit, hbase]
        simp only [Operation.attempt, hexit, Option.getD_none]
        exact ⟨hscopes.exit hlevel, hlevel⟩
      | some e =>
        have hdepth : (empty.run os).depth ≠ 0 := fun h => by simp [exit?_eq_none_iff.2 h] at hexit
        have hlevel : (empty.run os).scopes.tail.length = level (os ++ [.exit]) + 1 := by
          rw [length_scopes] at hlength
          rw [htail, level_exit]
          omega
        simp only [Operation.attempt, hexit, Option.getD_some, scopes_exit hexit]
        rw [scopes_eq_cons] at hscopes
        exact ⟨hscopes.2.exit hlevel, hlevel⟩
    | define x d => exact hwrite [(x, d)] rfl (by simp [level])
    | update bindings => exact hwrite bindings rfl (by simp [level])

/-! ### What a name has -/

theorem get?_eq_findSome? (e : Environment) (x : String) :
    e.get? x = e.scopes.findSome? (·.find? x) := by
  unfold get? lookupIn scopes
  rw [List.findSome?_append]
  cases e.inner.findSome? (·.find? x) <;> simp

theorem getSuper?_eq_findSome? (h : e.depth ≠ 0) (x : String) :
    e.getSuper? x = e.scopes.tail.findSome? (·.find? x) := by
  obtain ⟨_ | ⟨s, inner⟩, base, structs⟩ := e
  · exact (h rfl).elim
  · exact get?_eq_findSome? ⟨inner, base, structs⟩ x

theorem getSuper?_of_base (h : e.depth = 0) (x : String) : e.getSuper? x = e.get? x := by
  obtain ⟨_ | ⟨s, inner⟩, base, structs⟩ := e
  · rfl
  · cases h

theorem Described.decides {scopes : List Scope} (h : Described os x scopes) :
    Decides (fun entry => Live os x entry ∧ entry.level < scopes.length)
      (scopes.findSome? (·.find? x)) := by
  induction scopes with
  | nil => exact .nothing fun entry ⟨_, hlt⟩ => Nat.not_lt_zero _ hlt
  | cons s outer ih =>
    obtain ⟨hs, houter⟩ := h
    rw [List.findSome?_cons, List.length_cons]
    generalize s.find? x = r at hs
    cases hs with
    | latest entry hentry hlatest =>
      obtain ⟨hlive, hlevel⟩ := hentry
      refine .latest entry ⟨hlive, by omega⟩ fun other ⟨hother, hlt⟩ => ?_
      by_cases hout : other.level < outer.length
      · exact .inl (hlevel ▸ hout)
      · exact hlatest other ⟨hother, by omega⟩
    | nothing hnone =>
      refine (ih houter).congr fun entry => and_congr_right fun hlive => ?_
      have hne : entry.level ≠ outer.length := fun h => hnone entry ⟨hlive, h⟩
      omega

/-- What operations have left of a name, in the scopes that are open. -/
theorem decides_get? (os : List Operation) (x : String) :
    Decides (Live os x) ((empty.run os).get? x) := by
  obtain ⟨hscopes, hlength⟩ := described_run os x
  rw [get?_eq_findSome?]
  refine hscopes.decides.congr fun entry => and_iff_left_of_imp fun hlive => ?_
  rw [hlength]
  exact Nat.lt_succ_of_le hlive.level_le

theorem depth_run (os : List Operation) : (empty.run os).depth = level os := by
  have hlength := (described_run os "").2
  rw [length_scopes] at hlength
  exact Nat.succ.inj hlength

theorem decides_getSuper? (os : List Operation) (x : String) :
    Decides (fun entry => Live os x entry ∧ (level os ≠ 0 → entry.level < level os))
      ((empty.run os).getSuper? x) := by
  have hdepth := depth_run os
  by_cases hbase : level os = 0
  · rw [getSuper?_of_base (hdepth.trans hbase)]
    exact (decides_get? os x).congr fun entry => (and_iff_left fun h => (h hbase).elim).symm
  · obtain ⟨hscopes, hlength⟩ := described_run os x
    rw [getSuper?_eq_findSome? (hdepth ▸ hbase)]
    rw [scopes_eq_cons] at hscopes hlength
    have htail : (empty.run os).scopes.tail.length = level os := Nat.succ.inj hlength
    refine hscopes.2.decides.congr fun entry => and_congr_right fun _ => ?_
    rw [htail]
    exact ⟨fun h _ => h, fun h => h hbase⟩

/-- What operations do in a scope of its own is gone when it is left. -/
theorem scopes_scope {body : List Operation}
    (h : (e.enter.run body).scopes.tail = e.scopes) :
    (e.run (.enter :: body ++ [.exit])).scopes = e.scopes := by
  obtain ⟨e', hexit, hscopes⟩ := exists_exit h
  have hbody : e.run (.enter :: body) = e.enter.run body := rfl
  have hlast : Operation.exit.attempt (e.enter.run body) = some e' := hexit
  rw [run_append, hbody, run_singleton, hlast, Option.getD_some, hscopes]

/-- Balanced operations bind names in the innermost scope and do nothing else. -/
theorem Balanced.tail_scopes (h : Balanced os) (e : Environment) :
    (e.run os).scopes.tail = e.scopes.tail := by
  induction h generalizing e with
  | nil => rfl
  | define x d => exact tail_scopes_modifyInnermost (e := e) (·.set x d)
  | update bindings => exact tail_scopes_modifyInnermost (e := e) (·.update bindings)
  | scope _ ih => rw [scopes_scope (ih e.enter)]
  | append _ _ ih ih' => rw [run_append, ih', ih]

theorem lookup_eq_iff {r : Option Datum} :
    e.lookup x = r.elim (.error (.unbound x)) .ok ↔ e.get? x = r := by
  unfold lookup
  cases e.get? x <;> cases r <;> simp

theorem lookupSuper_eq_iff {r : Option Datum} :
    e.lookupSuper x = r.elim (.error (.unbound x)) .ok ↔ e.getSuper? x = r := by
  unfold lookupSuper
  cases e.getSuper? x <;> cases r <;> simp

/-- An environment is what its history says. Only leaving the base fails, and it changes nothing. A name
has the value of the latest living entry in the innermost scope that has one. Lookup past the innermost
scope leaves out the entries there, unless that is the base. Where there is no entry, and only there,
lookup reports the name. Operations that enter a scope and leave it again change nothing. -/
theorem lookup_history (os : List Operation) :
    let e := empty.run os
    (∀ o : Operation, o.attempt e = none ↔ o = .exit ∧ level os = 0) ∧
    (∀ o : Operation, o.attempt e = none → empty.run (os ++ [o]) = e) ∧
    (∀ x r, e.get? x = r ↔ Decides (Live os x) r) ∧
    (∀ x r, e.getSuper? x = r ↔
      Decides (fun entry => Live os x entry ∧ (level os ≠ 0 → entry.level < level os)) r) ∧
    (level os = 0 → ∀ x, e.getSuper? x = e.get? x) ∧
    (∀ x r, e.lookup x = r.elim (.error (.unbound x)) .ok ↔ Decides (Live os x) r) ∧
    (∀ x r, e.lookupSuper x = r.elim (.error (.unbound x)) .ok ↔
      Decides (fun entry => Live os x entry ∧ (level os ≠ 0 → entry.level < level os)) r) ∧
    ∀ body, Balanced body →
      ∀ x, (empty.run (os ++ (.enter :: body ++ [.exit]))).get? x = e.get? x := by
  intro e
  have hdepth : e.depth = level os := depth_run os
  have hget (x : String) (r : Option Datum) : e.get? x = r ↔ Decides (Live os x) r :=
    ⟨fun h => h ▸ decides_get? os x, (decides_get? os x).unique fun _ => id⟩
  have hsuper (x : String) (r : Option Datum) : e.getSuper? x = r ↔
      Decides (fun entry => Live os x entry ∧ (level os ≠ 0 → entry.level < level os)) r :=
    ⟨fun h => h ▸ decides_getSuper? os x, (decides_getSuper? os x).unique fun _ => And.left⟩
  refine ⟨fun o => ?_, fun o ho => ?_, hget, hsuper, fun hbase x => ?_, fun x r => ?_, fun x r => ?_,
    fun body hbody x => ?_⟩
  · cases o <;> simp [Operation.attempt, exit?_eq_none_iff, hdepth]
  · rw [run_append, run_singleton, ho]
    rfl
  · exact getSuper?_of_base (hdepth.trans hbase) x
  · exact lookup_eq_iff.trans (hget x r)
  · exact lookupSuper_eq_iff.trans (hsuper x r)
  · rw [run_append, get?_eq_findSome?, get?_eq_findSome?, scopes_scope (hbody.tail_scopes e.enter)]

/-- At the base, a scope that shadows a name is entered and left, and the base is not. -/
theorem lookup_history_shadowed :
    let os : List Operation := [.define "x" (.bool true)]
    let body : List Operation := [.define "x" (.bool false)]
    Operation.exit.attempt (empty.run os) = none ∧ empty.run (os ++ [.exit]) = empty.run os ∧
    level os = 0 ∧ (empty.run os).getSuper? "x" = (empty.run os).get? "x" ∧
    Balanced body ∧ (empty.run (os ++ (.enter :: body ++ [.exit]))).get? "x" = some (.bool true) := by
  intro os body
  have hbody : Balanced body := .define "x" (.bool false)
  obtain ⟨-, hfail, -, -, hbase, -, -, hscope⟩ := lookup_history os
  exact ⟨rfl, hfail .exit rfl, rfl, hbase rfl "x", hbody, (hscope body hbody "x").trans rfl⟩

end Environment

end DynamicLisp
