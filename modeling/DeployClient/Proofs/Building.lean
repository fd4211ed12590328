import DeployClient.Proofs.Ledger

/-!
How building an archive ends, and what is in it then.

A run is completed if no input has aborted it and the destination takes what is written. Only
then can the archive be called empty. Even one that was given up names nothing twice.
-/

namespace DeployClient.Archive

open Tar (Member)

/-- What is left in the writer when the work is done, if it was begun. -/
def lastWriter (fs : FileSystem) (filesOnly : Bool) (paths : List Path) (options : Options) :
    Option Writer :=
  match prepare fs filesOnly paths options with
  | .error _ => none
  | .ok (dir, w) =>
    match archiveAll fs dir paths w with
    | .ok _ w' => some w'
    | .error _ w' => some w'

/-- What an archive is begun with. -/
structure Prepared (fs : FileSystem) (filesOnly : Bool) (options : Options) (dir : Path)
    (w : Writer) : Prop where
  directory : workingDirectory fs options.workingDir = .ok dir
  normal : dir.IsNormal
  patterns : (Ignore.load fs dir options.ignoreFiles).1 = .ok w.patterns
  claims : w.claims = .empty
  members : w.members = []
  filesOnly : w.filesOnly = filesOnly
  sinkFault : w.sinkFault = options.sinkFault

variable {fs : FileSystem} {filesOnly : Bool} {paths : List Path} {options : Options} {dir : Path}
  {w w' : Writer} {n : Nat}

lemma isNormal_of_workingDirectory {given : Option Path}
    (h : workingDirectory fs given = .ok dir) : dir.IsNormal := by
  have hcwd : ∀ cwd, fs.currentDir = .ok cwd → cwd.isAbsolute = true := by
    intro cwd hcwd
    unfold FileSystem.currentDir at hcwd
    split at hcwd
    · obtain rfl := Except.ok.inj hcwd
      rfl
    · simp at hcwd
  unfold workingDirectory at h
  split at h
  · split at h
    · next habs =>
      obtain rfl := Except.ok.inj h
      exact Path.isNormal_normalize habs
    · split at h
      · next cwd hc =>
        obtain rfl := Except.ok.inj h
        exact Path.isNormal_normalize (Path.isAbsolute_join (hcwd cwd hc))
      · simp at h
  · split at h
    · next cwd hc =>
      obtain rfl := Except.ok.inj h
      exact Path.isNormal_normalize (hcwd cwd hc)
    · simp at h

lemma prepared_of_prepare (h : prepare fs filesOnly paths options = .ok (dir, w)) :
    Prepared fs filesOnly options dir w := by
  unfold prepare at h
  split at h
  · simp at h
  · split at h
    · simp at h
    · next hdir =>
      simp only at h
      split at h
      · simp at h
      · next hload =>
        obtain ⟨rfl, rfl⟩ := Prod.mk.inj (Except.ok.inj h)
        exact ⟨hdir, isNormal_of_workingDirectory hdir, hload, rfl, rfl, rfl, rfl⟩

/-! ### Only an empty archive is called empty -/

/-- Errors from before an archive is begun. -/
inductive Error.Early : Error → Prop
  | emptyPaths : Early .emptyPaths
  | workingDir (os : OsError) : Early (.workingDir os)
  | ignoreFile (file : Path) (io : IoError) : Early (.ignoreFile file io)
  | ignorePatterns (line : Ignore.LineError) : Early (.ignorePatterns line)

lemma Error.Early.ne_nothingArchived {e : Error} (h : e.Early) : e ≠ .nothingArchived := by
  cases h <;> simp

lemma workingDirectory_error {given : Option Path} {e : Error}
    (h : workingDirectory fs given = .error e) : e.Early := by
  unfold workingDirectory at h
  split at h
  · split at h
    · simp at h
    · split at h
      · simp at h
      · exact Except.error.inj h ▸ .workingDir _
  · split at h
    · simp at h
    · exact Except.error.inj h ▸ .workingDir _

lemma readFiles_error (root : Path) (files : List Path) {e : Error}
    (h : (Ignore.readFiles fs root files).lines = .error e) : e.Early := by
  induction files with
  | nil => simp [Ignore.readFiles] at h
  | cons file files ih =>
    unfold Ignore.readFiles at h
    split at h
    · simp only at h
      cases hrest : (Ignore.readFiles fs root files).lines with
      | error e' =>
        rw [hrest] at h
        obtain rfl := Except.error.inj h
        exact ih hrest
      | ok lines =>
        rw [hrest] at h
        simp [Except.map] at h
    · split at h
      · exact ih h
      · exact Except.error.inj h ▸ .ignoreFile _ _

lemma load_error {root : Path} {files : List Path} {e : Error}
    (h : (Ignore.load fs root files).1 = .error e) : e.Early := by
  unfold Ignore.load at h
  simp only at h
  split at h
  · next e' hlines =>
    obtain rfl := Except.error.inj h
    exact readFiles_error root files hlines
  · next lines hlines =>
    cases hcompile : Ignore.Patterns.compile root lines with
    | error err =>
      rw [hcompile] at h
      exact Except.error.inj h ▸ .ignorePatterns _
    | ok patterns =>
      rw [hcompile] at h
      simp [Except.mapError] at h

lemma prepare_error {e : Error} {notes : List Note}
    (h : prepare fs filesOnly paths options = .error (e, notes)) : e.Early := by
  unfold prepare at h
  split at h
  · obtain ⟨rfl, -⟩ := Prod.mk.inj (Except.error.inj h)
    exact .emptyPaths
  · split at h
    · next hdir =>
      obtain ⟨rfl, -⟩ := Prod.mk.inj (Except.error.inj h)
      exact workingDirectory_error hdir
    · simp only at h
      split at h
      · next hload =>
        obtain ⟨rfl, -⟩ := Prod.mk.inj (Except.error.inj h)
        exact load_error hload
      · simp at h

lemma fail_notMem_inputOps (single : Bool) (p : Path) :
    .fail .nothingArchived ∉ inputOps fs dir single p := by
  unfold inputOps
  split
  · simp
  · split
    · simp
    · split
      · intro h
        rcases List.mem_cons.mp h with h | h
        · simp at h
        · unfold walkOps at h
          split at h
          · simp at h
          · obtain ⟨v, -, hv⟩ := List.mem_flatMap.mp h
            rcases mem_visitOps.mp hv with hv | ⟨hv, -⟩
            · unfold visitOp at hv
              split at hv <;> simp at hv
            · simp at hv
      · simp

/-! ### How building ends -/

/-- No input has aborted the run, and the destination takes what is written. -/
structure Completed (fs : FileSystem) (filesOnly : Bool) (paths : List Path) (options : Options)
    (dir : Path) (w : Writer) (n : Nat) (w' : Writer) : Prop where
  prepare : prepare fs filesOnly paths options = .ok (dir, w)
  run : archiveInputs fs dir (paths.length = 1) paths w = .ok n w'
  sink : w'.sinkFault = none

lemma finish_eq (n : Nat) (w : Writer) : finish n w =
    match w.sinkFault with
    | some e => .error (.io e) w
    | none =>
      if n = 0 then .error .nothingArchived (w.note (.event (.archiveCreated n)))
      else .ok () (w.note (.event (.archiveCreated n))) := by
  have hget : finish n w = (match w.sinkFault with
    | some e => throw (.io e)
    | none => do
      event (.archiveCreated n)
      if n = 0 then throw .nothingArchived : Writing Unit) w := rfl
  rw [hget]
  cases w.sinkFault with
  | some e => rfl
  | none => by_cases hn : n = 0 <;> simp [hn] <;> rfl

lemma archiveAll_of_ok (h : archiveInputs fs dir (paths.length = 1) paths w = .ok n w') :
    archiveAll fs dir paths w = finish n w' :=
  bind_of_ok h

lemma archiveAll_of_error {e : Error}
    (h : archiveInputs fs dir (paths.length = 1) paths w = .error e w') :
    archiveAll fs dir paths w = .error e w' :=
  bind_of_error h

namespace Completed

/-- What a completed run counts is what it has written. -/
lemma count_eq (h : Completed fs filesOnly paths options dir w n w') : n = w'.members.length := by
  have hprep := prepared_of_prepare h.prepare
  have hrun := h.run
  rw [archiveInputs_eq_runAll] at hrun
  obtain ⟨rs, hrs⟩ := exists_accounts hprep.claims hprep.members hrun
  rw [hrs.entries, List.length_map, hrs.count]

lemma result (h : Completed fs filesOnly paths options dir w n w') :
    (build fs filesOnly paths options).result
      = if w'.members = [] then .error .nothingArchived else .ok () := by
  have hzero : n = 0 ↔ w'.members = [] := by rw [h.count_eq, List.length_eq_zero_iff]
  unfold build
  rw [h.prepare]
  simp only [archiveAll_of_ok h.run, finish_eq, h.sink]
  by_cases hn : n = 0
  · simp [hn, hzero.mp hn]
  · have hnil : w'.members ≠ [] := fun hnil => hn (hzero.mpr hnil)
    simp [hn, hnil]

lemma lastWriter (h : Completed fs filesOnly paths options dir w n w') :
    lastWriter fs filesOnly paths options = some (w'.note (.event (.archiveCreated n))) := by
  unfold Archive.lastWriter
  rw [h.prepare]
  simp only [archiveAll_of_ok h.run, finish_eq, h.sink]
  by_cases hn : n = 0 <;> simp [hn]

end Completed

lemma archiveInputs_error {single : Bool} {e : Error}
    (h : archiveInputs fs dir single paths w = .error e w') : e ≠ .nothingArchived := by
  rintro rfl
  rw [archiveInputs_eq_runAll] at h
  obtain ⟨hfail, -⟩ := (runAll_ends _ w).of_error h
  obtain ⟨p, -, hp⟩ := List.mem_flatMap.mp (hfail rfl)
  exact fail_notMem_inputOps _ p hp

/-- A run that has not completed has failed with another error than an empty archive. -/
lemma completed_or_error (fs : FileSystem) (filesOnly : Bool) (paths : List Path)
    (options : Options) : (∃ dir w n w', Completed fs filesOnly paths options dir w n w')
      ∨ ∃ e, e ≠ .nothingArchived ∧ (build fs filesOnly paths options).result = .error e := by
  rcases hprep : prepare fs filesOnly paths options with ⟨e, notes⟩ | ⟨dir, w⟩
  · exact .inr ⟨e, (prepare_error hprep).ne_nothingArchived, by simp [build, hprep]⟩
  · rcases hrun : archiveInputs fs dir (paths.length = 1) paths w with ⟨n, w'⟩ | ⟨e, w'⟩
    · rcases hsink : w'.sinkFault with _ | e
      · exact .inl ⟨dir, w, n, w', hprep, hrun, hsink⟩
      · refine .inr ⟨.io e, by simp, ?_⟩
        simp [build, hprep, archiveAll_of_ok hrun, finish_eq, hsink]
    · exact .inr ⟨e, archiveInputs_error hrun, by simp [build, hprep, archiveAll_of_error hrun]⟩

lemma nodup_names_of_run (hw : Prepared fs filesOnly options dir w) (ops : List Op) :
    (∀ n w', runAll ops w = .ok n w' → (w'.members.map Member.name).Nodup)
      ∧ ∀ e w', runAll ops w = .error e w' → (w'.members.map Member.name).Nodup := by
  constructor
  · intro n w' h
    obtain ⟨rs, hrs⟩ := exists_accounts hw.claims hw.members h
    exact hrs.nodup_names
  · intro e w' h
    exact nodup_names_of_backed hw.claims hw.members ((runAll_ends ops w).of_error h).2

/-- However building ends, what was received holds no name twice. -/
lemma nodup_lastWriter (h : lastWriter fs filesOnly paths options = some w') :
    (w'.members.map Member.name).Nodup
      ∧ (build fs filesOnly paths options).received = w'.bytes options.compression := by
  unfold lastWriter at h
  rcases hprep : prepare fs filesOnly paths options with ⟨e, notes⟩ | ⟨dir, w⟩
  · simp [hprep] at h
  · have hnodup := nodup_names_of_run (prepared_of_prepare hprep)
      (paths.flatMap (inputOps fs dir (paths.length = 1)))
    rw [← archiveInputs_eq_runAll] at hnodup
    simp only [hprep] at h
    rcases hrun : archiveInputs fs dir (paths.length = 1) paths w with ⟨n, w₁⟩ | ⟨e, w₁⟩
    · have hall := archiveAll_of_ok hrun
      rw [finish_eq] at hall
      have hmembers := hnodup.1 n w₁ hrun
      split at hall
      · simp only [hall, Option.some.injEq] at h
        subst h
        exact ⟨hmembers, by simp [build, hprep, hall]⟩
      · split at hall <;>
        · simp only [hall, Option.some.injEq] at h
          subst h
          exact ⟨hmembers, by simp [build, hprep, hall]⟩
    · have hall := archiveAll_of_error hrun
      simp only [hall, Option.some.injEq] at h
      subst h
      exact ⟨hnodup.2 e _ hrun, by simp [build, hprep, hall]⟩

/-- What is received of a completed run is the whole archive. -/
lemma Completed.received (h : Completed fs filesOnly paths options dir w n w') :
    (build fs filesOnly paths options).received
      = some (Gzip.encode options.compression (Tar.encode w'.members)) := by
  rw [(nodup_lastWriter h.lastWriter).2]
  simp [Writer.bytes, h.sink]

lemma exists_received (h : (build fs filesOnly paths options).result = .ok ()) :
    ∃ archive, (build fs filesOnly paths options).received = some archive := by
  rcases completed_or_error fs filesOnly paths options with ⟨dir, w, n, w', hall⟩ | ⟨e, -, he⟩
  · exact ⟨_, hall.received⟩
  · simp [h] at he

lemma exists_ok_of_toBool {ε α : Type} {r : Except ε α} (h : r.toBool = true) : ∃ a, r = .ok a := by
  cases r with
  | ok a => exact ⟨a, rfl⟩
  | error e => simp [Except.toBool] at h

lemma ok_of_toBool {r : Except Error Unit} (h : r.toBool = true) : r = .ok () := by
  obtain ⟨_, h⟩ := exists_ok_of_toBool h
  exact h

/-- **Claims and entries stay in step.** After any operations that have not failed, the claims
apart from the base's are the entries of the stream, each under a name of its own and from the
source of its claim, and as many as were counted. So an archive holds no name twice, and it is
called empty exactly if no input has aborted it and it has no entry. -/
theorem claims_match_entries :
    (∀ (ops : List Op) (w w' : Writer) (n : Nat), w.claims = .empty → w.members = [] →
      runAll ops w = .ok n w' →
      ∃ rs, Accounts ops w w' n rs ∧ (w'.members.map Member.name).Nodup
        ∧ ((∀ op ∈ ops, op.Ordinary) → Tar.decode? (Tar.encode w'.members)
          = some (rs.map fun r => r.member.stored)))
    ∧ ∀ (fs : FileSystem) (filesOnly : Bool) (paths : List Path) (options : Options),
      (∀ w, lastWriter fs filesOnly paths options = some w →
        (w.members.map Member.name).Nodup
          ∧ (build fs filesOnly paths options).received = w.bytes options.compression)
      ∧ ((build fs filesOnly paths options).result = .error .nothingArchived ↔
        ∃ dir w n w', Completed fs filesOnly paths options dir w n w' ∧ w'.members = []) := by
  refine ⟨fun ops w w' n hc hm h => ?_, fun fs filesOnly paths options =>
    ⟨fun w h => nodup_lastWriter h, ?_, ?_⟩⟩
  · obtain ⟨rs, hrs⟩ := exists_accounts hc hm h
    refine ⟨rs, hrs, hrs.nodup_names, fun hordinary => ?_⟩
    have hwritable : ∀ m ∈ rs.map Record.member, m.Writable := by
      intro m hmem
      obtain ⟨r, hr, rfl⟩ := List.mem_map.mp hmem
      obtain ⟨op, hop, hby⟩ := hrs.origin r hr
      exact hby.writable (hordinary op hop)
    rw [hrs.entries, Tar.decode?_encode hwritable, List.map_map]
    rfl
  · intro h
    rcases completed_or_error fs filesOnly paths options with ⟨dir, w, n, w', hdone⟩ | ⟨e, hne, he⟩
    · refine ⟨dir, w, n, w', hdone, ?_⟩
      by_contra hnil
      simp [hdone.result, hnil] at h
    · rw [he] at h
      exact absurd (Except.error.inj h) hne
  · rintro ⟨dir, w, n, w', hdone, hnil⟩
    rw [hdone.result, if_pos hnil]

/-- A file brings its directory with it, and the directory itself comes too late. -/
theorem claims_match_entries_of_file :
    let f := Node.file ⟨0o644, 5, .root⟩ [104]
    let d := Node.directory ⟨0o755, 6, .root⟩ [([102], f)]
    let fs : FileSystem := ⟨.directory ⟨0o755, 0, .root⟩ [([100], d)], [], 0, .root⟩
    let ops : List Op := [.file fs (.ofText "/d/f") (.ofText "/") f,
      .path fs (.ofText "/d") (.ofText "/") d]
    ∃ w' rs, runAll ops (.new ⟨[], []⟩ false) = .ok 2 w'
      ∧ Accounts ops (.new ⟨[], []⟩ false) w' 2 rs
      ∧ w'.members.map Member.name = [[100], [100, 47, 102]] := by
  intro f d fs ops
  have hrun : (match runAll ops (.new ⟨[], []⟩ false) with
    | .ok n w' => some (n, w'.members.map Member.name)
    | .error .. => none) = some (2, [[100], [100, 47, 102]]) := by decide +kernel
  split at hrun
  · next n w' hw' =>
    obtain ⟨rfl, hnames⟩ := Prod.mk.inj (Option.some.inj hrun)
    obtain ⟨rs, hrs, -⟩ := claims_match_entries.1 ops _ w' 2 rfl rfl hw'
    exact ⟨w', rs, hw', hrs, hnames⟩
  · simp at hrun

end DeployClient.Archive
