import DynamicLisp.Proofs.Session.Loading

/-! Files that programs write and read. Writing changes the content of one file and no directory, so
what is read from a file is what was last written to it, but for the form of its line ends
(`read_last_write`). -/
namespace DynamicLisp

theorem except_bind_eq_ok {ε α β : Type} {x : Except ε α} {f : α → Except ε β} {b : β} :
    (x >>= f) = .ok b ↔ ∃ a, x = .ok a ∧ f a = .ok b := by
  cases x <;> simp [bind, Except.bind]

namespace FileSystem

variable {fs fs' fs'' : FileSystem} {p q : Path} {l m : Location} {c d part : String}

/-! ### Places in the tree -/

theorem step_eq_ok : fs.step l part = .ok m ↔ fs.node? l = some .directory ∧
    part.utf8ByteSize ≤ maxNameSize ∧ (if part = ".." then l.tail else part :: l) = m := by
  unfold step
  split
  · simp_all
  · rename_i hnode
    by_cases hsize : maxNameSize < part.utf8ByteSize
    · simp [hnode, hsize, Nat.not_le.2 hsize]
    · simp [hnode, hsize, Nat.not_lt.1 hsize]
  · simp_all
  · simp_all

/-- Two trees have the same directories, and paths start in the same one. -/
structure SameDirectories (fs fs' : FileSystem) : Prop where
  here : fs.here = fs'.here
  directory : ∀ l, fs.node? l = some .directory ↔ fs'.node? l = some .directory

theorem SameDirectories.refl (fs : FileSystem) : SameDirectories fs fs := ⟨rfl, fun _ => .rfl⟩

theorem SameDirectories.trans (h : SameDirectories fs fs') (h' : SameDirectories fs' fs'') :
    SameDirectories fs fs'' :=
  ⟨h.here.trans h'.here, fun l => (h.directory l).trans (h'.directory l)⟩

/-- A path leads to the same place if the directories are the same. -/
theorem SameDirectories.locate (h : SameDirectories fs fs') :
    fs.locate p = .ok l ↔ fs'.locate p = .ok l := by
  have hsteps (parts : List String) (m : Location) :
      parts.foldlM fs.step m = .ok l ↔ parts.foldlM fs'.step m = .ok l := by
    induction parts generalizing m with
    | nil => rfl
    | cons part parts ih =>
      simp only [List.foldlM_cons, except_bind_eq_ok, step_eq_ok, h.directory, ih]
  unfold FileSystem.locate
  split
  · rfl
  · split
    · rfl
    · rw [h.here, hsteps]

/-- Two paths lead to the same place. -/
def SameFile (fs : FileSystem) (p q : Path) : Prop := ∃ l, fs.locate p = .ok l ∧ fs.locate q = .ok l

theorem SameDirectories.sameFile (h : SameDirectories fs fs') :
    fs.SameFile p q ↔ fs'.SameFile p q := by
  simp only [SameFile, h.locate]

theorem find_eq_ok {node : Node} : fs.find p = .ok node ↔
    ∃ l, fs.locate p = .ok l ∧ fs.node? l = some node := by
  rw [find, except_bind_eq_ok]
  refine exists_congr fun l => and_congr_right fun _ => ?_
  split <;> simp_all [throw, throwThe, MonadExceptOf.throw, pure, Except.pure]

theorem content_eq_ok : fs.content p = .ok c ↔
    ∃ l, fs.locate p = .ok l ∧ fs.node? l = some (.file c) := by
  rw [← find_eq_ok, content, except_bind_eq_ok]
  constructor
  · rintro ⟨node, hfind, hcontent⟩
    cases node with
    | file c' =>
      cases hcontent
      exact hfind
    | binary | directory | closed => cases hcontent
  · exact fun hfind => ⟨_, hfind, rfl⟩

/-! ### Writing -/

theorem write_eq_ok : fs.write p c = .ok fs' ↔ ∃ l, fs.locate p = .ok l ∧
    fs.node? l ≠ some .directory ∧ fs.node? l ≠ some .closed ∧
      fs' = { fs with nodes := fs.nodes.set l (.file c) } := by
  rw [write, except_bind_eq_ok]
  refine exists_congr fun l => and_congr_right fun _ => ?_
  split <;> simp_all [throw, throwThe, MonadExceptOf.throw, pure, Except.pure, eq_comm]

theorem node?_set (h : fs.node? l ≠ some .directory) (m : Location) :
    node? { fs with nodes := fs.nodes.set l (.file c) } m =
      if l = m then some (.file c) else fs.node? m := by
  cases l with
  | nil => exact (h rfl).elim
  | cons name l =>
    cases m with
    | nil => rfl
    | cons name' m => exact Table.find?_set ..

theorem sameDirectories_write (h : fs.write p c = .ok fs') : SameDirectories fs fs' := by
  obtain ⟨l, -, hnode, -, rfl⟩ := write_eq_ok.1 h
  refine ⟨rfl, fun m => ?_⟩
  rw [node?_set hnode]
  split
  · rename_i heq
    subst heq
    simp [hnode]
  · rfl

/-- The text that is written is the content of the file. -/
theorem content_write (h : fs.write p c = .ok fs') (hsame : fs.SameFile p q) :
    fs'.content q = .ok c := by
  obtain ⟨m, hp, hq⟩ := hsame
  have hq' := (sameDirectories_write h).locate.1 hq
  obtain ⟨l, hl, hnode, -, rfl⟩ := write_eq_ok.1 h
  obtain rfl : m = l := Except.ok.inj (hp.symm.trans hl)
  exact content_eq_ok.2 ⟨m, hq', by rw [node?_set hnode, if_pos rfl]⟩

/-- Other files keep their content. -/
theorem content_write_other (h : fs.write p c = .ok fs') (hsame : ¬ fs.SameFile p q) :
    fs'.content q = .ok d ↔ fs.content q = .ok d := by
  rw [content_eq_ok, content_eq_ok]
  refine exists_congr fun m => ?_
  rw [← (sameDirectories_write h).locate]
  refine and_congr_right fun hq => ?_
  obtain ⟨l, hl, hnode, -, rfl⟩ := write_eq_ok.1 h
  rw [node?_set hnode, if_neg]
  rintro rfl
  exact hsame ⟨l, hl, hq⟩

end FileSystem

/-! ### Calls of programs -/

theorem not_mem_unifyLineEnds (cs : List Char) : '\r' ∉ Text.unifyLineEnds cs := by
  fun_induction Text.unifyLineEnds cs with
  | case1 => exact List.not_mem_nil
  | case2 cs ih | case3 cs _ ih => simp [ih]
  | case4 c cs _ hc ih => simp [ih, Ne.symm hc]

theorem unifyLineEnds_eq_iff {cs : List Char} : Text.unifyLineEnds cs = cs ↔ '\r' ∉ cs :=
  ⟨fun h => h ▸ not_mem_unifyLineEnds cs, unifyLineEnds_eq⟩

/-- The text that is read from a file with a content. -/
def textOf (content : String) : Datum := .string (String.ofList (Text.unifyLineEnds content.toList))

theorem textOf_eq_iff {c : String} : textOf c = .string c ↔ '\r' ∉ c.toList := by
  rw [textOf, Datum.string.injEq, ← unifyLineEnds_eq_iff, String.ext_iff, String.toList_ofList]

/-- A call of an operator on files. -/
inductive FileCall
  | write (path content : String)
  | read (path : String)

namespace FileCall

variable {ev : Evaluator} {path content : String} {w v u : World} {d : Datum}

/-- What the call does, the operator being run on the values of its arguments. -/
def run (ev : Evaluator) : FileCall → Action Datum
  | write path content => Intrinsic.writeFile.run ev [.string path, .string content]
  | read path => Intrinsic.readFile.run ev [.string path]

theorem run_read (path : String) (w : World) : (read path).run ev w =
    (match w.host.files.content (Path.ofText path) with
      | .ok content => .ok (textOf content)
      | .error f => .error (.ofFault (.unreadable (Path.ofText path).text) f), w) := by
  rw [run, Intrinsic.run, Intrinsic.runReadFile_apply, FileSystem.read]
  cases w.host.files.content (Path.ofText path) <;> rfl

theorem run_write (path content : String) (w : World) : (write path content).run ev w =
    match w.host.files.write (Path.ofText path) content with
      | .ok files => (.ok .empty, { w with host := { w.host with files := files } })
      | .error f => (.error (.ofFault (.unwritable path) f), w) := by
  rw [run, Intrinsic.run]
  exact Intrinsic.runWriteFile_apply path content w

theorem snd_run_read (path : String) (w : World) : ((read path).run ev w).2 = w := by
  rw [run_read]

theorem run_read_eq_ok : ((read path).run ev w).1 = .ok d ↔
    ∃ content, w.host.files.content (Path.ofText path) = .ok content ∧ d = textOf content := by
  rw [run_read]
  cases w.host.files.content (Path.ofText path) <;> simp [eq_comm]

theorem run_write_eq_ok (h : (write path content).run ev w = (.ok d, v)) :
    w.host.files.write (Path.ofText path) content = .ok v.host.files := by
  rw [run_write] at h
  cases hwrite : w.host.files.write (Path.ofText path) content with
  | error e =>
    rw [hwrite] at h
    cases h
  | ok files =>
    rw [hwrite] at h
    cases h
    rfl

/-- Calls made one after the other. Those that write succeed; those that read may fail. -/
inductive Made (ev : Evaluator) : World → List FileCall → World → Prop
  | nil (w : World) : Made ev w [] w
  | write {w v u : World} {path content : String} {calls : List FileCall} :
    (FileCall.write path content).run ev w = (.ok .empty, v) → Made ev v calls u →
    Made ev w (.write path content :: calls) u
  | read {w v u : World} {path : String} {calls : List FileCall} :
    ((FileCall.read path).run ev w).2 = v → Made ev v calls u →
    Made ev w (.read path :: calls) u

/-- Two names lead to the same place in the tree of files. -/
def SameFile (w : World) (p q : String) : Prop :=
  w.host.files.SameFile (Path.ofText p) (Path.ofText q)

variable {before after calls : List FileCall} {p q : String}

theorem Made.append (h : Made ev w (before ++ calls) u) :
    ∃ v, Made ev w before v ∧ Made ev v calls u := by
  induction before generalizing w with
  | nil => exact ⟨w, .nil w, h⟩
  | cons call before ih =>
    cases h with
    | write hrun hrest =>
      obtain ⟨v, hbefore, hcalls⟩ := ih hrest
      exact ⟨v, .write hrun hbefore, hcalls⟩
    | read hrun hrest =>
      obtain ⟨v, hbefore, hcalls⟩ := ih hrest
      exact ⟨v, .read hrun hbefore, hcalls⟩

/-- No call makes or removes a directory, so names keep the places that they lead to. -/
theorem Made.sameFile (h : Made ev w calls u) : SameFile w p q ↔ SameFile u p q := by
  suffices hdirectories : w.host.files.SameDirectories u.host.files from hdirectories.sameFile
  induction h with
  | nil w => exact .refl _
  | write hrun _ ih => exact (FileSystem.sameDirectories_write (run_write_eq_ok hrun)).trans ih
  | read hrun _ ih =>
    rw [snd_run_read] at hrun
    rwa [hrun]

/-- A file that no call writes to keeps its content. -/
theorem Made.unwritten (h : Made ev w calls u)
    (hother : ∀ q c, .write q c ∈ calls → ¬ SameFile w q p) :
    u.host.files.content (Path.ofText p) = .ok content ↔
      w.host.files.content (Path.ofText p) = .ok content := by
  induction h with
  | nil w => rfl
  | @write w v u path c calls hrun hrest ih =>
    have hkeep (q : String) : SameFile w q p ↔ SameFile v q p :=
      (Made.write hrun (.nil v)).sameFile
    rw [ih fun q d hq => mt (hkeep q).2 (hother q d (List.mem_cons_of_mem _ hq))]
    exact FileSystem.content_write_other (run_write_eq_ok hrun) (hother path c List.mem_cons_self)
  | @read w v u path calls hrun _ ih =>
    rw [snd_run_read] at hrun
    subst hrun
    exact ih fun q c hq => hother q c (List.mem_cons_of_mem _ hq)

/-- A file has the content that was last written to it. -/
theorem Made.written (h : Made ev w (before ++ .write q content :: after) u) (hsame : SameFile w q p)
    (hother : ∀ q' c, .write q' c ∈ after → ¬ SameFile w q' p) :
    u.host.files.content (Path.ofText p) = .ok content := by
  obtain ⟨v, hbefore, hcalls⟩ := h.append
  cases hcalls with
  | @write _ v' _ _ _ _ hrun hafter =>
    have hkeep (q' : String) : SameFile w q' p ↔ SameFile v q' p := hbefore.sameFile
    have hkeep' (q' : String) : SameFile v q' p ↔ SameFile v' q' p :=
      (Made.write hrun (.nil v')).sameFile
    rw [hafter.unwritten fun q' c hq => mt ((hkeep q').trans (hkeep' q')).2 (hother q' c hq)]
    exact FileSystem.content_write (run_write_eq_ok hrun) ((hkeep q).1 hsame)

/-- After calls of which those that write succeed, reading a file gives what was last written to it,
with every line end in the form `\n`. That is the text that was written exactly if there is no `\r` in
it. Reading a file that none of the calls writes to gives what it gives before them. -/
theorem read_last_write (h : Made ev w calls u) (p : String) :
    (∀ before q content after, calls = before ++ .write q content :: after → SameFile w q p →
      (∀ q' c, .write q' c ∈ after → ¬ SameFile w q' p) →
      (read p).run ev u = (.ok (textOf content), u) ∧
      (((read p).run ev u).1 = .ok (.string content) ↔ '\r' ∉ content.toList)) ∧
    ((∀ q c, .write q c ∈ calls → ¬ SameFile w q p) →
      ∀ d, ((read p).run ev u).1 = .ok d ↔ ((read p).run ev w).1 = .ok d) := by
  constructor
  · rintro before q content after rfl hsame hother
    have hcontent := h.written hsame hother
    have hread : (read p).run ev u = (.ok (textOf content), u) := by rw [run_read, hcontent]
    rw [hread]
    exact ⟨rfl, by rw [Except.ok.injEq, textOf_eq_iff]⟩
  · intro hother d
    rw [run_read_eq_ok, run_read_eq_ok]
    exact exists_congr fun content => and_congr_left fun _ => h.unwritten hother

/-- A file that is written twice, under two names and with another one in between. -/
theorem read_last_write_twice :
    let files (nodes : List (Location × Node)) : World := ⟨.empty, ⟨⟨⟨nodes⟩, ["d"]⟩, [], "", []⟩⟩
    let w := files [(["d"], .directory)]
    let u := files [(["d"], .directory), (["a", "d"], .file "3\r\n4"), (["b", "d"], .file "2")]
    let calls := [write "a" "1", read "./a", write "b" "2", write "../d/a" "3\r\n4", read "c"]
    Made (evaluate 0) w calls u ∧ SameFile w "../d/a" "a" ∧ ¬ SameFile w "../d/a" "b" ∧
      (read "a").run (evaluate 0) u = (.ok (textOf "3\r\n4"), u) ∧
      (read "b").run (evaluate 0) u = (.ok (textOf "2"), u) := by
  intro files w u calls
  let w₁ := files [(["d"], .directory), (["a", "d"], .file "1")]
  let w₂ := files [(["d"], .directory), (["a", "d"], .file "1"), (["b", "d"], .file "2")]
  have hfirst : (write "a" "1").run (evaluate 0) w = (.ok .empty, w₁) := by
    rw [run_write]
    rfl
  have hother : (write "b" "2").run (evaluate 0) w₁ = (.ok .empty, w₂) := by
    rw [run_write]
    rfl
  have hagain : (write "../d/a" "3\r\n4").run (evaluate 0) w₂ = (.ok .empty, u) := by
    rw [run_write]
    rfl
  have hmade : Made (evaluate 0) w calls u :=
    .write hfirst (.read (snd_run_read ..) (.write hother (.write hagain
      (.read (snd_run_read ..) (.nil u)))))
  have hsame : SameFile w "../d/a" "a" := ⟨["a", "d"], rfl, rfl⟩
  have hdiffers : ¬ SameFile w "../d/a" "b" := by
    rintro ⟨l, ha, hb⟩
    obtain rfl : ["a", "d"] = l := Except.ok.inj ha
    exact absurd (Except.ok.inj hb) (show ["b", "d"] ≠ ["a", "d"] by decide)
  have ha := (read_last_write hmade "a").1 [write "a" "1", read "./a", write "b" "2"] _ _ [read "c"]
    rfl hsame (by simp)
  have hb := (read_last_write hmade "b").1 [write "a" "1", read "./a"] _ _ _ rfl
    ⟨["b", "d"], rfl, rfl⟩ (by simpa using hdiffers)
  exact ⟨hmade, hsame, hdiffers, ha.1, hb.1⟩

/-- The form of the line ends is lost. -/
theorem read_carriage_return :
    let w : World := ⟨.empty, ⟨.atLocation ["d"], [], "", []⟩⟩
    ∃ u, (write "f" "a\r\nb").run (evaluate 0) w = (.ok .empty, u) ∧
      (read "f").run (evaluate 0) u = (.ok (.string "a\nb"), u) := by
  intro w
  refine ⟨_, run_write .., ?_⟩
  rw [run_read]
  rfl

end FileCall

end DynamicLisp
