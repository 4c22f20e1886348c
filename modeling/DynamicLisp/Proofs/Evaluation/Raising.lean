import DynamicLisp.Proofs.Evaluation.Mirror
import DynamicLisp.Proofs.Host.Faults

/-! What stops an evaluation though it is no failure of the program. There are three such reasons, and
an evaluation stops for one of them only where it calls an intrinsic that raises it
(`encounters_of_raised`). -/
namespace DynamicLisp

/-- The ways to stop that intrinsics have besides failures and exits. -/
def Stop.Raised : Stop → Prop
  | overflow | endless | fault _ => True
  | error _ | exit _ | noScope | runaway => False

theorem Stop.Raised.ne {s t : Stop} (hs : s.Raised) (ht : ¬ t.Raised) : s ≠ t := fun h => ht (h ▸ hs)

/-- What intrinsics raise when they are run on values: `fibonacci` on an argument that is too great,
`eq?` on values whose comparison comes back to itself, and the intrinsics for files where the host
raises what is not reported. -/
inductive Intrinsic.Raises (w : World) : Intrinsic → List Datum → Stop → Prop
  | overflow {x : Float} :
    FibonacciOverflows x → Raises w (.operator .fibonacci) [.number x] .overflow
  | endless {a b : Datum} : Datum.Returns (a, b) → Raises w (.operator .equal) [a, b] .endless
  | readNul {name : String} :
    '\x00' ∈ name.toList → Raises w .readFile [.string name] (.fault .nulInPath)
  | writeNul {name content : String} : '\x00' ∈ name.toList →
    Raises w .writeFile [.string name, .string content] (.fault .nulInPath)
  | readBinary {name : String} : w.host.files.find (Path.ofText name) = .ok .binary →
    Raises w .readFile [.string name] (.fault .notText)
  | loadBinary {name : String} {p : Path} : w.host.resolve? name = .ok (some p) →
    w.host.files.find p = .ok .binary → Raises w .load [.string name] (.fault .notText)
  | loadStopped {name : String} {e : FileError} : w.host.resolve? name = .error (.system e) →
    e = .nameTooLong ∨ e = .denied → Raises w .load [.string name] (.fault (.system e))

namespace Action

/-- However the action is started, it does not stop for the reason. -/
def Avoids (s : Stop) (α : Type) (x : Action α) : Prop := ∀ w, (x w).1 ≠ .error s

variable {s : Stop}

theorem Avoids.bind {α β : Type} {x : Action α} {f : α → Action β} (hx : Avoids s α x)
    (hf : ∀ a, Avoids s β (f a)) : Avoids s β (x >>= f) := by
  intro w
  have hw := hx w
  rcases bind_cases x f w with ⟨t, w', hstop, h⟩ | ⟨a, w', _, h⟩
  · rw [hstop] at hw
    rw [h]
    exact fun ht => hw (by cases ht; rfl)
  · rw [h]
    exact hf a w'

theorem Avoids.inScope (hscope : s ≠ .noScope) {α : Type} {x : Action α} (hx : Avoids s α x) :
    Avoids s α (Action.inScope x) := by
  intro w
  unfold Action.inScope
  dsimp only
  split
  · exact hx _
  · exact fun h => hscope (by cases h; rfl)

theorem avoids_elementary (hs : s.Raised) : Elementary (Avoids s) where
  pure _ _ := nofun
  bind := .bind
  fail e _ := fun h => hs.ne (t := .error e) id (by cases h; rfl)
  exit code _ := fun h => hs.ne (t := .exit code) id (by cases h; rfl)
  environment _ := nofun
  host _ := nofun
  modifyHost _ _ := nofun
  update _ _ := nofun
  declare _ _ _ _ := nofun
  inScope := .inScope (hs.ne id)

end Action

namespace Arguments

variable {args : List Datum} {d a b : Datum} {text : String}

theorem one_eq_ok (h : one args = .ok a) : args = [a] := by
  unfold one at h
  split at h <;> cases h
  rfl

theorem two_eq_ok (h : two args = .ok (a, b)) : args = [a, b] := by
  unfold two at h
  split at h <;> cases h
  rfl

theorem string_eq_ok (h : string d = .ok text) : d = .string text := by
  unfold string at h
  split at h <;> cases h
  rfl

end Arguments

variable {watched : Datum → World → Bool} {limit : Nat} {d v : Datum} {ds vs : List Datum}
  {w w' : World} {s : Stop}

/-! ### Intrinsics -/

section
variable {ev : Evaluator} {args : List Datum} (hs : s.Raised)
include hs

theorem Stop.Raised.ofFault_eq {report : FileError → LispError} {f : HostFault}
    (h : Stop.ofFault report f = s) : s = .fault f ∧ ∀ e, f ≠ .system e := by
  cases f with
  | system e =>
    cases h
    exact hs.elim
  | nulInPath | notText => exact ⟨h.symm, nofun⟩

/-- A check of the program stops for no such reason. -/
theorem Stop.Raised.past_check {α β : Type} {x : Except LispError α} {f : α → Action β}
    (h : ((liftM x >>= f : Action β) w).1 = .error s) : ∃ a, x = .ok a ∧ (f a w).1 = .error s := by
  cases x with
  | error e =>
    cases h
    exact hs.elim
  | ok a => exact ⟨a, rfl, h⟩

/-- What insists on one text has been given one when it stops so. -/
theorem Stop.Raised.exists_string {f : String → Action Datum}
    (h : ((liftM (Arguments.one args) >>= fun d => liftM (Arguments.string d) >>= f :
      Action Datum) w).1 = .error s) : ∃ name, args = [.string name] := by
  obtain ⟨d, hargs, h⟩ := hs.past_check h
  obtain ⟨name, hname, -⟩ := hs.past_check h
  obtain rfl := Arguments.string_eq_ok hname
  exact ⟨name, Arguments.one_eq_ok hargs⟩

theorem Operator.raises_iff (o : Operator) :
    o.run args = .error s ↔ (Intrinsic.operator o).Raises w args s := by
  constructor
  · intro h
    rcases run_stops h with ⟨_, rfl⟩ | ⟨rfl, rfl, x, rfl, hx⟩ | ⟨rfl, rfl, a, b, rfl, hab⟩
    · exact hs.elim
    · exact .overflow hx
    · exact .endless hab
  · intro h
    cases h with
    | overflow hx => simp [run_fibonacci, hx.1, hx.2]
    | endless hab => rw [Datum.run_equal, Datum.equal?_eq_none_iff.2 hab]; rfl

theorem Intrinsic.readFile_raises_iff :
    (runReadFile args w).1 = .error s ↔ readFile.Raises w args s := by
  constructor
  · intro h
    obtain ⟨name, rfl⟩ := hs.exists_string h
    rw [runReadFile_apply] at h
    cases hread : w.host.files.read (Path.ofText name) with
    | ok text =>
      rw [hread] at h
      cases h
    | error f =>
      rw [hread] at h
      obtain ⟨rfl, hsystem⟩ := hs.ofFault_eq (Except.error.inj h)
      rcases FileSystem.content_fault (FileSystem.read_eq_error.1 hread) with
        ⟨e, rfl⟩ | ⟨rfl, hnul⟩ | ⟨rfl, hbinary⟩
      · exact (hsystem e rfl).elim
      · exact .readNul (Path.hasNul_ofText.1 hnul)
      · exact .readBinary hbinary
  · intro h
    cases h with
    | readNul hnul =>
      rw [runReadFile_apply, FileSystem.read_eq_error.2
        (FileSystem.content_of_hasNul (Path.hasNul_ofText.2 hnul))]
      rfl
    | readBinary hbinary =>
      rw [runReadFile_apply, FileSystem.read_eq_error.2 (FileSystem.content_of_binary hbinary)]
      rfl

theorem Intrinsic.writeFile_raises_iff :
    (runWriteFile args w).1 = .error s ↔ writeFile.Raises w args s := by
  constructor
  · intro h
    obtain ⟨⟨d, c⟩, hargs, h'⟩ := hs.past_check h
    obtain ⟨name, hname, h'⟩ := hs.past_check h'
    obtain ⟨content, hcontent, -⟩ := hs.past_check h'
    obtain rfl := Arguments.two_eq_ok hargs
    obtain rfl := Arguments.string_eq_ok hname
    obtain rfl := Arguments.string_eq_ok hcontent
    rw [runWriteFile_apply] at h
    cases hwrite : w.host.files.write (Path.ofText name) content with
    | ok files =>
      rw [hwrite] at h
      cases h
    | error f =>
      rw [hwrite] at h
      obtain ⟨rfl, hsystem⟩ := hs.ofFault_eq (Except.error.inj h)
      rcases FileSystem.write_fault hwrite with ⟨e, rfl⟩ | ⟨rfl, hnul⟩
      · exact (hsystem e rfl).elim
      · exact .writeNul (Path.hasNul_ofText.1 hnul)
  · intro h
    cases h with
    | writeNul hnul =>
      rw [runWriteFile_apply, FileSystem.write_of_hasNul (Path.hasNul_ofText.2 hnul)]
      rfl

variable (hev : ∀ d, Action.Avoids s Datum (ev d))
include hev

/-- Of a file that is there, the import stops so only if the file holds no text. -/
theorem importFile_raises {p : Path} (hfile : w.host.files.isFile p = .ok true)
    (h : (importFile ev p w).1 = .error s) :
    w.host.files.find p = .ok .binary ∧ s = .fault .notText := by
  rw [importFile_apply] at h
  rcases FileSystem.content_of_isFile hfile with ⟨c, hcontent⟩ | hbinary
  · rw [FileSystem.read, hcontent] at h
    have hR := (Action.avoids_elementary hs).relational
    have hboth (d : Datum) : ev d = ev d ∧ Action.Avoids s _ (ev d) := ⟨rfl, hev d⟩
    have havoids (text : List Char) := (hR.bind (hR.lift (readSource text)) fun exprs =>
      hR.bind (hR.evaluateEach hboth exprs) fun _ => hR.pure Datum.empty).2
    exact (havoids _ w h).elim
  · rw [FileSystem.read_eq_error.2 (FileSystem.content_of_binary hbinary)] at h
    cases h
    exact ⟨hbinary, rfl⟩

theorem Intrinsic.load_raises_iff :
    (runLoad ev args w).1 = .error s ↔ load.Raises w args s := by
  have hload (name : String) : runLoad ev [.string name] w =
      (resolveFile name >>= fun p => importFile ev p) w := rfl
  constructor
  · intro h
    obtain ⟨name, rfl⟩ := hs.exists_string h
    rw [hload, Action.bind_apply, resolveFile_apply] at h
    rcases hresolve : w.host.resolve? name with f | _ | p
    · rw [hresolve] at h
      cases h
      obtain ⟨e, rfl, he, -⟩ := Host.resolve?_fault hresolve
      exact .loadStopped hresolve he
    · rw [hresolve] at h
      cases h
      exact hs.elim
    · rw [hresolve] at h
      obtain ⟨hbinary, rfl⟩ := importFile_raises hs hev (Host.isFile_of_resolve? hresolve) h
      exact .loadBinary hresolve hbinary
  · intro h
    cases h with
    | loadBinary hresolve hbinary =>
      rw [hload, Action.bind_apply, resolveFile_apply, hresolve]
      dsimp only
      rw [importFile_apply, FileSystem.read_eq_error.2 (FileSystem.content_of_binary hbinary)]
      rfl
    | loadStopped hresolve _ =>
      rw [hload, Action.bind_apply, resolveFile_apply, hresolve]

/-- With an evaluator that does not stop for the reason, an intrinsic does where it raises it, and
nowhere else. -/
theorem Intrinsic.raises_iff {g : Intrinsic} (hg : g.MayRaise) :
    (g.run ev args w).1 = .error s ↔ g.Raises w args s := by
  cases hg with
  | operator o =>
    rw [Intrinsic.run]
    exact Operator.raises_iff hs o
  | load =>
    rw [Intrinsic.run]
    exact load_raises_iff hs hev
  | readFile =>
    rw [Intrinsic.run]
    exact readFile_raises_iff hs
  | writeFile =>
    rw [Intrinsic.run]
    exact writeFile_raises_iff hs

end

/-! ### Evaluations -/

/-- Where one evaluator gives a value, the other one gives the same. -/
def Agrees (ev ev' : Evaluator) : Prop :=
  ∀ d w v w', ev d w = (.ok v, w') → ev' d w = (.ok v, w')

theorem Agrees.evaluateAll {ev ev' : Evaluator} (hagrees : Agrees ev ev')
    (h : evaluateAll ev ds w = (.ok vs, w')) : evaluateAll ev' ds w = (.ok vs, w') := by
  induction ds generalizing w vs with
  | nil => exact h
  | cons d ds ih =>
    obtain ⟨u, us, w₁, rfl, hfirst, hrest⟩ := evaluateAll_cons h
    rw [DynamicLisp.evaluateAll, Action.bind_apply, hagrees d w u w₁ hfirst]
    dsimp only
    rw [Action.bind_apply, ih hrest]
    rfl

/-- An evaluation that is watched and gives a value is not changed by the watching. -/
theorem agrees_until (watched : Datum → World → Bool) (limit : Nat) :
    Agrees (evaluateUntil watched limit) (evaluate limit) := by
  intro d w v w' h
  rw [← h, evaluateUntil_eq]
  intro hencounters
  rw [Encounters, h] at hencounters
  cases hencounters

/-- The expression is a form that calls an intrinsic which raises the stop, itself or through
`apply`. -/
def CallsRaising (s : Stop) (d : Datum) (w : World) : Prop :=
  ∃ limit head exprs f args g args' w₁ w₂, d = .list (head :: exprs) ∧
    evaluate limit head w = (.ok (.intrinsic f), w₁) ∧
    evaluateAll (evaluate limit) exprs w₁ = (.ok args, w₂) ∧
    f.HandsTo args g args' ∧ g.Raises w₂ args' s

section
variable {ev : Evaluator} (hs : s.Raised) (hev : ∀ d, Action.Avoids s Datum (ev d))
include hs hev

/-- An intrinsic that comes to nothing which raises the stop does not stop so, unless an evaluation
inside of it does. -/
theorem intrinsic_avoids {f : Intrinsic} {args : List Datum}
    (hnone : ∀ g args', f.HandsTo args g args' → ¬ g.Raises w args' s) :
    (f.run ev args w).1 ≠ .error s := by
  by_cases hraise : ∃ g args', f.HandsTo args g args' ∧ g.MayRaise
  · obtain ⟨g, args', hhands, hg⟩ := hraise
    rw [hhands.run_eq]
    exact mt (Intrinsic.raises_iff hs hev hg).1 (hnone g args' hhands)
  · have hboth (d : Datum) : ev d = ev d ∧ Action.Avoids s _ (ev d) := ⟨rfl, hev d⟩
    refine ((Action.avoids_elementary hs).relational.intrinsic hboth f args ?_).2 w
    exact fun g args' hhands hg => (hraise ⟨g, args', hhands, hg⟩).elim

/-- A form that is no such call does not stop so, unless an evaluation inside of it does. -/
theorem form_avoids {head : Datum} {exprs : List Datum} (hagrees : Agrees ev (evaluate limit))
    (hcalls : ¬ CallsRaising s (.list (head :: exprs)) w) :
    (evaluateWith ev (.list (head :: exprs)) w).1 ≠ .error s := by
  have hR := (Action.avoids_elementary hs).relational
  have hboth (d : Datum) : ev d = ev d ∧ Action.Avoids s _ (ev d) := ⟨rfl, hev d⟩
  have hhead := hev head w
  rcases Action.bind_cases (ev head) (fun v => call ev v exprs) w with
    ⟨t, w₁, hstop, h⟩ | ⟨v, w₁, hv, h⟩
  · rw [hstop] at hhead
    rw [evaluateWith, h]
    exact fun ht => hhead (by cases ht; rfl)
  rw [evaluateWith, h]
  by_cases hintrinsic : ∃ f, v = .intrinsic f
  · obtain ⟨f, rfl⟩ := hintrinsic
    have hall := (hR.evaluateAll hboth exprs).2 w₁
    rcases Action.bind_cases (evaluateAll ev exprs) (f.run ev) w₁ with
      ⟨t, w₂, hstop, h⟩ | ⟨args, w₂, hargs, h⟩
    · rw [hstop] at hall
      rw [call, h]
      exact fun ht => hall (by cases ht; rfl)
    · rw [call, h]
      refine intrinsic_avoids hs hev fun g args' hhands hraises => hcalls ?_
      exact ⟨limit, head, exprs, f, args, g, args', w₁, w₂, rfl, hagrees _ _ _ _ hv,
        hagrees.evaluateAll hargs, hhands, hraises⟩
  · exact (hR.call hboth v exprs fun f _ hf => (hintrinsic ⟨f, hf⟩).elim).2 w₁

end

open Classical in
/-- An evaluation that is broken off at such calls does not stop so. -/
theorem evaluateUntil_avoids (hs : s.Raised) (limit : Nat) (d : Datum) : Action.Avoids s Datum
    (evaluateUntil (fun d w => decide (CallsRaising s d w)) limit d) := by
  induction limit generalizing d with
  | zero => exact fun _ h => hs.ne (t := .runaway) id (by cases h; rfl)
  | succ limit ih =>
    intro w
    by_cases hcalls : CallsRaising s d w
    · rw [evaluateUntil_of_watched (decide_eq_true hcalls)]
      exact fun h => hs.ne (t := .noScope) id (by cases h; rfl)
    · rw [evaluateUntil_of_unwatched (decide_eq_false hcalls)]
      by_cases hform : ∃ head exprs, d = .list (head :: exprs)
      · obtain ⟨head, exprs, rfl⟩ := hform
        exact form_avoids hs ih (agrees_until _ limit) hcalls
      · refine (Action.avoids_elementary hs).evaluateWith d (fun head exprs h => ?_) w
        exact (hform ⟨head, exprs, h⟩).elim

open Classical in
/-- An evaluation that stops so comes to such a call. -/
theorem encounters_of_raised (hs : s.Raised) (h : (evaluate limit d w).1 = .error s) :
    Encounters (fun d w => decide (CallsRaising s d w)) limit d w := by
  by_contra hnot
  have havoids := evaluateUntil_avoids hs limit d w
  rw [evaluateUntil_eq hnot] at havoids
  exact havoids h

/-- Evaluating the expressions one after the other comes to a moment that is watched for. -/
def EncountersIn (watched : Datum → World → Bool) (limit : Nat) : List Datum → World → Prop
  | [], _ => False
  | d :: ds, w => Encounters watched limit d w ∨
      ∃ v w', evaluate limit d w = (.ok v, w') ∧ EncountersIn watched limit ds w'

open Classical in
theorem encountersIn_of_raised (hs : s.Raised) (result : Datum)
    (h : (Session.evalExprs limit result ds w).1 = .error s) :
    EncountersIn (fun d w => decide (CallsRaising s d w)) limit ds w := by
  induction ds generalizing result w with
  | nil => cases h
  | cons d ds ih =>
    rw [Session.evalExprs] at h
    rcases Action.bind_cases (evaluate limit d) (fun v => Session.evalExprs limit v ds) w with
      ⟨t, w₁, hstop, hresult⟩ | ⟨v, w₁, hd, hresult⟩
    · rw [hresult] at h
      have hraised : (evaluate limit d w).1 = .error s := by
        rw [hstop]
        exact h
      exact .inl (encounters_of_raised hs hraised)
    · rw [hresult] at h
      exact .inr ⟨v, w₁, hd, ih v h⟩

open Classical in
theorem encountersIn_of_text_raised {text : String} (hs : s.Raised)
    (h : (Session.evalText limit text w).1 = .error s) :
    EncountersIn (fun d w => decide (CallsRaising s d w)) limit (Script.ofText text).exprs w := by
  apply encountersIn_of_raised hs .empty
  unfold Session.evalText at h
  rw [Action.bind_apply] at h
  generalize Session.evalExprs limit .empty (Script.ofText text).exprs w = p at h
  obtain ⟨t | v, w'⟩ := p
  · cases h
    rfl
  · cases hfault : (Script.ofText text).fault with
    | none =>
      simp only [hfault] at h
      cases h
    | some e =>
      simp only [hfault] at h
      cases h
      exact hs.elim

end DynamicLisp
