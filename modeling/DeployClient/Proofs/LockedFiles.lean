import DeployClient.Proofs.Admission
import DeployClient.Proofs.Candidates

/-!
Files that the process may not read.

Such a file is looked at like any other, and only opening it is refused. So it is passed over where
any other file is passed over, and where it is let in the archive is given up before its header is
written. Everything else that is seen where it stands can be archived.
-/

namespace DeployClient.Archive

variable {fs : FileSystem} {base p : Path} {n : Node} {w w' : Writer} {path : Bytes} {kind : Kind}

/-- A file that the process may not read. -/
structure Locked (fs : FileSystem) (n : Node) : Prop where
  isFile : n.isFile = true
  refused : fs.allows .read n = false

/-- What opening such a file is answered with. -/
def Error.locked : Error := .io (.os .permissionDenied)

namespace Locked

lemma exists_eq (h : Locked fs n) : ∃ stamp data, n = .file stamp data := by
  have hfile := h.isFile
  cases n with
  | file stamp data => exact ⟨stamp, data, rfl⟩
  | _ => simp [Node.isFile] at hfile

lemma ofNode? (h : Locked fs n) : Kind.ofNode? n = some .file := by
  obtain ⟨stamp, data, rfl⟩ := h.exists_eq
  rfl

lemma isDirectory_eq (h : Locked fs n) : n.isDirectory = false := by
  obtain ⟨stamp, data, rfl⟩ := h.exists_eq
  rfl

/-- Nothing is refused to a process that may do everything. -/
lemma not_isPrivileged (h : Locked fs n) : fs.caller.isPrivileged = false := by
  have hrefused := h.refused
  rw [FileSystem.allows, Stamp.allows, Bool.or_eq_false_iff] at hrefused
  exact hrefused.1

lemma openNode_eq (h : Locked fs n) (hl : fs.lstat p = .ok n) :
    fs.openNode p = .error .permissionDenied := by
  have hlink : n.isSymlink = false := by
    obtain ⟨stamp, data, rfl⟩ := h.exists_eq
    rfl
  rw [FileSystem.openNode, FileSystem.stat_of_lstat hl hlink]
  simp [h.refused]

end Locked

lemma not_locked_of_isDirectory (h : n.isDirectory = true) : ¬ Locked fs n := fun hn => by
  simp [hn.isDirectory_eq] at h

/-- What has been copied could be read. -/
lemma Record.Made.not_locked {patterns : Ignore.Patterns} {filesOnly : Bool} {r : Record}
    (h : r.Made patterns filesOnly fs base) (hl : fs.lstat r.entry.source = .ok r.node) :
    ¬ Locked fs r.node := by
  intro hn
  obtain ⟨passed, hp, -⟩ := h.entryOf.passes
  have hkind : r.entry.kind = .file := Option.some.inj (hp.ofNode.symm.trans hn.ofNode?)
  have hdata := h.delivers
  rw [Delivers, if_pos hkind] at hdata
  obtain ⟨content, hread, -⟩ := hdata
  simp [FileSystem.read, hn.openNode_eq hl] at hread

/-! ### What can be archived -/

lemma Sighted.not_outside (hp : Sighted fs base p n) : Path.nameBelow base p ≠ .outside :=
  Path.nameBelow_ne_outside hp.below

/-- The target of a link that is seen can be read. -/
lemma exists_target_of_lstat (hl : fs.lstat p = .ok n) (hk : Kind.ofNode? n = some kind) :
    ∃ t, targetOf fs kind p = .ok t := by
  cases kind with
  | symlink =>
    cases n with
    | symlink stamp target => exact ⟨target, by simp [targetOf, FileSystem.readLink, hl]⟩
    | _ => simp [Kind.ofNode?] at hk
  | _ => exact ⟨[], rfl⟩

/-- **What is seen where it stands can be archived**, unless it is a file that may not be read. -/
theorem readable_of_lstat (hl : fs.lstat p = .ok n) (hn : ¬ Locked fs n) : Readable fs p n := by
  refine ⟨fun kind => exists_target_of_lstat hl, fun hk => ?_⟩
  cases n with
  | file stamp data =>
    have hallows : stamp.allows fs.caller .read = true := by
      by_contra hrefused
      exact hn ⟨rfl, by simpa [FileSystem.allows, Node.stamp] using hrefused⟩
    exact ⟨data, by rw [FileSystem.read_of_lstat hl, if_pos hallows], Nat.le_refl _⟩
  | _ => simp [Kind.ofNode?] at hk

/-- A node that is seen is let in, or it is passed over and is not looked into. -/
lemma Sighted.admitted_or_passed (hp : Sighted fs base p n) (implied : Bool) (w : Writer) :
    (∃ path kind, Admits w base p n path kind)
      ∨ ∃ cs w', accept fs p base n implied w = .ok none w' ∧ Grows w w' cs []
        ∧ cs.filter (fun c => c.1 ≠ baseName) = [] := by
  rcases hj : w.judge p base n implied with _ | _ | d | ⟨name, path, first⟩ | ⟨name, kind⟩
  · exact absurd (nameBelow_of_judge_outside hj) hp.not_outside
  · exact .inr ⟨[], w, accept_of_silent hj, .refl w, rfl⟩
  · exact .inr ⟨[], _, accept_of_rejected hj, Grows.tell d w, rfl⟩
  · exact .inr ⟨[], _, accept_of_duplicate hj, (Grows.note _ w).trans (Grows.tell _ _), rfl⟩
  · obtain ⟨path, kind', hpass, hname⟩ := passes_of_judge hj (.inl ⟨name, kind, rfl⟩)
    obtain ⟨rfl, rfl, hfree⟩ := judgeName_eq_claims hname
    have hnames := Claims.holder?_eq_none_iff.mp hfree
    by_cases hbase : nameIn w.filesOnly path = baseName
    · rw [hbase] at hj hfree
      exact .inr ⟨_, _, accept_of_base hj, Grows.claim _ hfree, by simp⟩
    · exact .inl ⟨path, kind, hpass, hbase, hnames⟩

/-! ### What is refused -/

namespace Admits

lemma kind_of_locked (h : Admits w base p n path kind) (hn : Locked fs n) : kind = .file :=
  Option.some.inj (h.passes.ofNode.symm.trans hn.ofNode?)

/-- A file that may not be read and is let in leaves its claim and nothing else. -/
lemma addPath_locked (h : Admits w base p n path kind) (hl : fs.lstat p = .ok n)
    (hn : Locked fs n) (implied : Bool) :
    addPath fs p base n implied w = .error .locked (claimedBy w p path kind) := by
  have hwrite := write_unopened (e := entryAs w p n path kind []) (h.kind_of_locked hn)
    (hn.openNode_eq hl) n (claimedBy w p path kind)
  rw [h.addPath_eq (by rw [h.kind_of_locked hn]; rfl), bind_of_error hwrite]
  rfl

/-- One that is given on its own comes after the directories above it. -/
lemma addFile_locked {k : ℕ} (h : Admits w base p n path kind) (hl : fs.lstat p = .ok n)
    (hn : Locked fs n) (hparents : addParents fs base
      (if w.filesOnly then [] else parentsBelow p base) (claimedBy w p path kind) = .ok k w') :
    addFile fs p base n w = .error .locked w' := by
  have hwrite := write_unopened (e := entryAs w p n path kind []) (h.kind_of_locked hn)
    (hn.openNode_eq hl) n w'
  rw [h.addFile_eq (by rw [h.kind_of_locked hn]; rfl), bind_of_ok hparents, bind_of_error hwrite]
  rfl

/-- What has been let in and added could be read. -/
lemma not_locked_of_addPath {k : ℕ} {implied : Bool} (h : Admits w base p n path kind)
    (hl : fs.lstat p = .ok n) (hrun : addPath fs p base n implied w = .ok k w') :
    ¬ Locked fs n := fun hn => by
  simp [h.addPath_locked hl hn] at hrun

lemma not_locked_of_addFile {k : ℕ} (h : Admits w base p n path kind) (hl : fs.lstat p = .ok n)
    (hrun : addFile fs p base n w = .ok k w') : ¬ Locked fs n := by
  intro hn
  rcases hparents : addParents fs base (if w.filesOnly then [] else parentsBelow p base)
    (claimedBy w p path kind) with ⟨a, v⟩ | ⟨e, v⟩
  · simp [h.addFile_locked hl hn hparents] at hrun
  · have htarget : targetOf fs kind p = .ok [] := by
      rw [h.kind_of_locked hn]
      rfl
    rw [h.addFile_eq htarget, bind_of_error hparents] at hrun
    simp at hrun

end Admits

/-! ### Adding -/

end DeployClient.Archive
