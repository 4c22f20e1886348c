import DynamicLisp.Host.Basic

/-! What the host raises when files are accessed, and for which reason: paths that are none
(`hasNul_ofText`), files that hold no text (`content_fault`), and errors of the system that stop the
search for a file (`resolve?_fault`). -/
namespace DynamicLisp

theorem except_bind_eq_error {ε α β : Type} {x : Except ε α} {f : α → Except ε β} {e : ε} :
    (x >>= f) = .error e ↔ x = .error e ∨ ∃ a, x = .ok a ∧ f a = .error e := by
  cases x <;> simp [bind, Except.bind]

/-! ### Paths -/

theorem Text.flatten_splitWhere (p : Char → Bool) (cs : List Char) :
    (splitWhere p cs).flatten = cs.filter (!p ·) := by
  induction cs with
  | nil => rfl
  | cons c cs ih =>
    cases hc : p c with
    | true => simp [splitWhere, hc, ih]
    | false => simp [splitWhere, hc, ih, flatten_consPart]

/-- The parts of a path hold the character if the text of the path does. -/
theorem Path.hasNul_ofText {s : String} : (ofText s).hasNul = true ↔ '\x00' ∈ s.toList := by
  have hsplit : '\x00' ∈ s.toList ↔
      ∃ part ∈ Text.splitWhere (· = '/') s.toList, '\x00' ∈ part := by
    rw [← List.mem_flatten, Text.flatten_splitWhere]
    simp
  rw [hsplit]
  simp only [hasNul, ofText, List.any_eq_true, List.mem_filter, List.mem_map, List.contains_iff_mem]
  constructor
  · rintro ⟨_, ⟨⟨part, hpart, rfl⟩, -⟩, hnul⟩
    exact ⟨part, hpart, by simpa using hnul⟩
  · rintro ⟨part, hpart, hnul⟩
    refine ⟨_, ⟨⟨part, hpart, rfl⟩, ?_⟩, by simpa using hnul⟩
    have hne (t : String) (ht : '\x00' ∉ t.toList) : String.ofList part ≠ t := by
      rintro rfl
      exact ht (by simpa using hnul)
    simp [hne "" (by simp), hne "." (by simp)]

namespace FileSystem

variable {fs : FileSystem} {p : Path} {f : HostFault} {c : String}

/-! ### Looking a path up -/

/-- What stops a walk through the tree is an error of the system. -/
theorem walk_fault {parts : List String} {l : Location} (h : parts.foldlM fs.step l = .error f) :
    ∃ e, f = .system e ∧ e ≠ .isDirectory := by
  induction parts generalizing l with
  | nil => cases h
  | cons part parts ih =>
    rw [List.foldlM_cons, except_bind_eq_error] at h
    rcases h with hstep | ⟨m, -, hrest⟩
    · unfold step at hstep
      split at hstep
      · cases hstep
        exact ⟨_, rfl, nofun⟩
      · split at hstep
        · cases hstep
          exact ⟨_, rfl, nofun⟩
        · cases hstep
      · cases hstep
        exact ⟨_, rfl, nofun⟩
      · cases hstep
        exact ⟨_, rfl, nofun⟩
    · exact ih hrest

theorem locate_of_hasNul (h : p.hasNul = true) : fs.locate p = .error .nulInPath := if_pos h

theorem locate_fault (h : fs.locate p = .error f) :
    f = .nulInPath ∧ p.hasNul = true ∨ ∃ e, f = .system e ∧ e ≠ .isDirectory := by
  unfold locate at h
  split at h
  · rename_i hnul
    cases h
    exact .inl ⟨rfl, hnul⟩
  · split at h
    · cases h
      exact .inr ⟨_, rfl, nofun⟩
    · exact .inr (walk_fault h)

theorem find_fault (h : fs.find p = .error f) :
    f = .nulInPath ∧ p.hasNul = true ∨ ∃ e, f = .system e ∧ e ≠ .isDirectory := by
  unfold find at h
  rw [except_bind_eq_error] at h
  rcases h with hlocate | ⟨l, -, hnode⟩
  · exact locate_fault hlocate
  · cases hl : fs.node? l with
    | some node =>
      rw [hl] at hnode
      cases hnode
    | none =>
      rw [hl] at hnode
      cases hnode
      exact .inr ⟨_, rfl, nofun⟩

/-! ### Reading and writing -/

theorem content_of_hasNul (h : p.hasNul = true) : fs.content p = .error .nulInPath := by
  rw [content, find, locate_of_hasNul h]
  rfl

theorem content_of_binary (h : fs.find p = .ok .binary) : fs.content p = .error .notText := by
  rw [content, h]
  rfl

/-- Why a file cannot be read. -/
theorem content_fault (h : fs.content p = .error f) : (∃ e, f = .system e) ∨
    f = .nulInPath ∧ p.hasNul = true ∨ f = .notText ∧ fs.find p = .ok .binary := by
  unfold content at h
  rw [except_bind_eq_error] at h
  rcases h with hfind | ⟨node, hnode, hcontent⟩
  · rcases find_fault hfind with hnul | ⟨e, he, -⟩
    · exact .inr (.inl hnul)
    · exact .inl ⟨e, he⟩
  · cases node with
    | file c => cases hcontent
    | binary =>
      cases hcontent
      exact .inr (.inr ⟨rfl, hnode⟩)
    | directory | closed =>
      cases hcontent
      exact .inl ⟨_, rfl⟩

theorem read_eq_error : fs.read p = .error f ↔ fs.content p = .error f := by
  rw [read, except_bind_eq_error]
  exact or_iff_left fun ⟨_, _, h⟩ => by cases h

theorem write_of_hasNul (h : p.hasNul = true) (c : String) : fs.write p c = .error .nulInPath := by
  rw [write, locate_of_hasNul h]
  rfl

/-- Why a file cannot be written. -/
theorem write_fault (h : fs.write p c = .error f) :
    (∃ e, f = .system e) ∨ f = .nulInPath ∧ p.hasNul = true := by
  unfold write at h
  rw [except_bind_eq_error] at h
  rcases h with hlocate | ⟨l, -, hnode⟩
  · rcases locate_fault hlocate with hnul | ⟨e, he, -⟩
    · exact .inr hnul
    · exact .inl ⟨e, he⟩
  · split at hnode
    · cases hnode
      exact .inl ⟨_, rfl⟩
    · cases hnode
      exact .inl ⟨_, rfl⟩
    · cases hnode

/-! ### Looking for a file -/

/-- The question whether there is a file has no answer where the system does not let one look. -/
theorem isFile_fault (h : fs.isFile p = .error f) :
    ∃ e, f = .system e ∧ (e = .nameTooLong ∨ e = .denied) ∧ fs.find p = .error (.system e) := by
  unfold isFile at h
  split at h
  · cases h
  · cases h
  · cases h
  · rename_i e hfind
    split at h
    · cases h
    · rename_i habsence
      cases h
      refine ⟨e, rfl, ?_, hfind⟩
      obtain ⟨hnul, -⟩ | ⟨_, he, hdirectory⟩ := find_fault hfind
      · cases hnul
      · cases he
        cases e <;> simp_all [FileError.isAbsence]
  · cases h

/-- A file that has been found can be read, or holds no text. -/
theorem content_of_isFile (h : fs.isFile p = .ok true) :
    (∃ c, fs.content p = .ok c) ∨ fs.find p = .ok .binary := by
  unfold isFile at h
  split at h
  · rename_i c hfind
    exact .inl ⟨c, by rw [content, hfind]; rfl⟩
  · rename_i hfind
    exact .inr hfind
  · cases h
  · split at h <;> cases h
  · cases h

theorem firstFile?_cons (p : Path) (ps : List Path) : fs.firstFile? (p :: ps) =
    (fs.isFile p >>= fun found => if found then .ok (some p) else fs.firstFile? ps) := by
  rw [firstFile?, List.findM?]
  cases fs.isFile p with
  | error f => rfl
  | ok b => cases b <;> rfl

theorem isFile_of_firstFile? {ps : List Path} (h : fs.firstFile? ps = .ok (some p)) :
    fs.isFile p = .ok true := by
  induction ps with
  | nil => cases h
  | cons q ps ih =>
    rw [firstFile?_cons] at h
    cases hq : fs.isFile q with
    | error f =>
      rw [hq] at h
      cases h
    | ok b =>
      rw [hq] at h
      cases b with
      | true =>
        cases h
        exact hq
      | false => exact ih h

theorem firstFile?_fault {ps : List Path} (h : fs.firstFile? ps = .error f) :
    ∃ p ∈ ps, fs.isFile p = .error f := by
  induction ps with
  | nil => cases h
  | cons q ps ih =>
    rw [firstFile?_cons] at h
    cases hq : fs.isFile q with
    | error f =>
      rw [hq] at h
      cases h
      exact ⟨q, List.mem_cons_self, hq⟩
    | ok b =>
      rw [hq] at h
      cases b with
      | true => cases h
      | false =>
        obtain ⟨p, hp, hfault⟩ := ih h
        exact ⟨p, List.mem_cons_of_mem q hp, hfault⟩

end FileSystem

namespace Host

variable {h : Host} {name : String} {p : Path} {f : HostFault}

/-- The places at which a source file is looked for, in this order. -/
def candidates (h : Host) (name : String) : List Path :=
  let p := Path.ofText name
  p :: if p.isAbsolute then [] else h.roots.map (·.join p)

theorem resolve?_eq (h : Host) (name : String) :
    h.resolve? name = h.files.firstFile? (h.candidates name) := by
  rw [candidates, FileSystem.firstFile?_cons, resolve?]
  cases (Path.ofText name).isAbsolute <;> rfl

theorem isFile_of_resolve? (hp : h.resolve? name = .ok (some p)) : h.files.isFile p = .ok true := by
  rw [resolve?_eq] at hp
  exact FileSystem.isFile_of_firstFile? hp

/-- Why the search for a file is given up. -/
theorem resolve?_fault (hf : h.resolve? name = .error f) :
    ∃ e, f = .system e ∧ (e = .nameTooLong ∨ e = .denied) ∧
      ∃ p ∈ h.candidates name, h.files.find p = .error (.system e) := by
  rw [resolve?_eq] at hf
  obtain ⟨p, hp, hfault⟩ := FileSystem.firstFile?_fault hf
  obtain ⟨e, he, hcause, hfind⟩ := FileSystem.isFile_fault hfault
  exact ⟨e, he, hcause, p, hp, hfind⟩

end Host

end DynamicLisp
