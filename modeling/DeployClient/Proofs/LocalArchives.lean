import DeployClient.Program
import DeployClient.Proofs.ActionEnds
import DeployClient.Proofs.Building
import DeployClient.Proofs.WrittenFiles

/-!
Archives that are written to a file.

The archive is complete before its file is touched. So it is made of the files as they were, even
if its own place is in a directory that is archived, and whatever fails leaves all files alone. Only
a file that may be written and belongs to somebody else is lost: it is emptied before its
permissions are refused.
-/

namespace DeployClient

open DeployClient.Action (Ends)
open FileSystem (namesOf)

/-! ### A place for a file -/

namespace FileSystem

variable {fs fs' : FileSystem} {p : Path} {data : Bytes} {permissions : Nat} {force : Bool}

/-- A file can be written and be given its permissions: the path leads to one that the process may
write and that is its own, or to a free name in a directory that it may change. -/
def HasRoom (fs : FileSystem) (p : Path) : Prop :=
  (∃ names stamp old, fs.resolve .write p = .ok (.taken names (.file stamp old))
      ∧ stamp.allows fs.caller .write = true ∧ stamp.isOwnedBy fs.caller = true)
    ∨ ∃ parent name d, fs.resolve .write p = .ok (.free parent name)
      ∧ fs.nodeAt? parent = some d ∧ fs.allows .write d = true

/-- The path leads to a file that the process may write and that belongs to somebody else. -/
def IsForeign (fs : FileSystem) (p : Path) : Prop :=
  ∃ names stamp old, fs.resolve .write p = .ok (.taken names (.file stamp old))
    ∧ stamp.allows fs.caller .write = true ∧ stamp.isOwnedBy fs.caller = false

/-- To a process that may do everything no file is foreign. -/
lemma IsForeign.not_isPrivileged (h : fs.IsForeign p) : fs.caller.isPrivileged = false := by
  obtain ⟨names, stamp, old, -, -, hforeign⟩ := h
  rw [Stamp.isOwnedBy, Bool.or_eq_false_iff] at hforeign
  exact hforeign.1

/-- The path leads to a file with this content, and all other nodes have the kind, the permissions
and the content that they had. -/
structure OnlyChanges (fs fs' : FileSystem) (p : Path) (data : Bytes) (permissions : Nat) :
    Prop where
  cwd : fs'.cwd = fs.cwd
  read : fs'.read p = .ok data
  place : ∃ place stamp, fs.resolve .write p = .ok place ∧ stamp.permissions = permissions
    ∧ fs'.resolve .follow p = .ok (.taken (namesOf place) (.file stamp data))
    ∧ fs'.nodeAt? (namesOf place) = some (.file stamp data)
    ∧ ∀ names, names ≠ namesOf place →
      (fs'.nodeAt? names).map Node.look = (fs.nodeAt? names).map Node.look

/-- The file that the path leads to has lost its content, and that is all. -/
structure Empties (fs fs' : FileSystem) (p : Path) : Prop where
  cwd : fs'.cwd = fs.cwd
  foreign : fs.IsForeign p
  place : ∃ names stamp old time, fs.resolve .write p = .ok (.taken names (.file stamp old))
    ∧ fs'.nodeAt? names = some (.file ⟨stamp.permissions, time, stamp.owner⟩ [])
    ∧ ∀ others, others ≠ names →
      (fs'.nodeAt? others).map Node.look = (fs.nodeAt? others).map Node.look

lemma onlyChanges_of_puts {place : Place} {stamp : Stamp} (hp : fs.StartsFrom p)
    (hplace : fs.resolve .write p = .ok place) (h : Puts fs fs' place stamp data)
    (hown : stamp.isOwnedBy fs.caller = true)
    (hbit : stamp.permissions / 64 / Access.read.weight % 2 = 1) :
    fs.OnlyChanges fs' p data stamp.permissions := by
  have hto := h.resolve_follow hp hplace
  have hallows : stamp.allows fs'.caller .read = true := by
    rw [h.caller]
    exact allows_of_isOwnedBy hown hbit
  exact ⟨h.cwd, read_of_resolve hto hallows, place, stamp, hplace, rfl, hto, h.file,
    fun _ hns => h.map_look hns⟩

/-- **What writing a file comes to** that is given permissions by which its owner may read it. -/
theorem write_ends (hp : fs.StartsFrom p)
    (hbit : permissions / 64 / Access.read.weight % 2 = 1) :
    match fs.write p data permissions true with
    | (.ok _, fs') => fs.HasRoom p ∧ fs.OnlyChanges fs' p data permissions
    | (.error _, fs') => fs' = fs ∧ ¬ fs.HasRoom p ∧ ¬ fs.IsForeign p ∨ fs.Empties fs' p := by
  have hend := writeEnd fs p data permissions true
  rcases hwrite : fs.write p data permissions true with ⟨result, fs'⟩
  rw [hwrite] at hend
  cases hend with
  | made place node allowed puts =>
    exact ⟨.inr ⟨_, _, _, place, node, allowed⟩,
      onlyChanges_of_puts hp place puts (fs.isOwnedBy_stamp permissions) hbit⟩
  | replaced place allowed owned puts =>
    exact ⟨.inl ⟨_, _, _, place, allowed, owned rfl⟩,
      onlyChanges_of_puts hp place puts (owned rfl) hbit⟩
  | emptied place allowed forced foreign puts =>
    exact .inr ⟨puts.cwd, ⟨_, _, _, place, allowed, foreign⟩, _, _, _, _, place, puts.file,
      fun _ hns => puts.map_look hns⟩
  | refused free taken =>
    refine .inl ⟨rfl, ?_, fun ⟨names, stamp, old, hplace, hallowed, _⟩ => ?_⟩
    · rintro (⟨names, stamp, old, hplace, hallowed, -⟩ | ⟨parent, name, d, hplace, hd, hallowed⟩)
      · simp [taken names stamp old hplace] at hallowed
      · simp [free parent name hplace d hd] at hallowed
    · simp [taken names stamp old hplace] at hallowed

end FileSystem

/-! ### The command -/

namespace ArchiveFiles

variable {a : ArchiveFiles} {fs : FileSystem} {s s' : Session} {archive : Bytes}

/-- The archive that these files make, as it is built without being put anywhere. -/
structure Makes (a : ArchiveFiles) (fs : FileSystem) (archive : Bytes) : Prop where
  result : (Archive.build fs a.filesOnly a.paths a.options).result = .ok ()
  received : (Archive.build fs a.filesOnly a.paths a.options).received = some archive

lemma Makes.unique {archive' : Bytes} (h : a.Makes fs archive) (h' : a.Makes fs archive') :
    archive = archive' :=
  Option.some.inj (h.received.symm.trans h'.received)

/-- An archive is made only where there is a current directory. -/
lemma Makes.startsFrom (h : a.Makes fs archive) (p : Path) : fs.StartsFrom p := by
  rcases Archive.completed_or_error fs a.filesOnly a.paths a.options with
    ⟨dir, w, n, w', hall⟩ | ⟨e, -, he⟩
  · have hdir : Archive.workingDirectory fs none = .ok dir :=
      (Archive.prepared_of_prepare hall.prepare).directory
    unfold Archive.workingDirectory FileSystem.currentDir at hdir
    refine .inr ?_
    cases hcwd : fs.nodeAt? fs.cwd with
    | some d => rfl
    | none => simp [hcwd] at hdir
  · simp [h.result] at he

/-- The command puts the archive in its place, or leaves all files alone, or empties a file of
somebody else. -/
lemma run_ends (a : ArchiveFiles) (s : Session) :
    Ends a.run s
      (fun _ s' => ∃ archive, a.Makes s.fs archive ∧ s.fs.HasRoom a.output
        ∧ s.fs.OnlyChanges s'.fs a.output archive outputPermissions)
      fun s' => s'.fs = s.fs ∧ (∀ archive, a.Makes s.fs archive →
          ¬ s.fs.HasRoom a.output ∧ ¬ s.fs.IsForeign a.output)
        ∨ (∃ archive, a.Makes s.fs archive) ∧ s.fs.Empties s'.fs a.output := by
  unfold run
  refine Ends.bind (Q := fun s₀ s' => s₀ = s ∧ s' = s) (Ends.get ⟨rfl, rfl⟩) ?_
  rintro _ _ ⟨rfl, rfl⟩
  next s =>
  refine Ends.bind (Q := fun _ s' => s'.fs = s.fs) (Ends.modify rfl) ?_
  rintro - s₁ hs₁
  split
  · next e he =>
    refine Ends.throw (.inl ⟨hs₁, fun archive hmakes => ?_⟩)
    simp [hmakes.result] at he
  · next hok =>
    obtain ⟨archive, hreceived⟩ := Archive.exists_received hok
    have hmakes : a.Makes s.fs archive := ⟨hok, hreceived⟩
    simp only [hreceived, Option.getD_some]
    have hbit : outputPermissions / 64 / Access.read.weight % 2 = 1 := by decide
    have hwritten := @FileSystem.write_ends _ _ archive _ (hmakes.startsFrom a.output) hbit
    rcases hwrite : s.fs.write a.output archive outputPermissions true with ⟨_ | _, fs'⟩
    · rw [hwrite] at hwritten
      refine Ends.bind (Q := fun _ s' => s'.fs = fs') (Ends.modify rfl) ?_
      rintro - s₂ rfl
      refine Ends.throw ?_
      rcases hwritten with ⟨hsame, hroom, hforeign⟩ | hempties
      · exact .inl ⟨hsame, fun _ _ => ⟨hroom, hforeign⟩⟩
      · exact .inr ⟨⟨archive, hmakes⟩, hempties⟩
    · rw [hwrite] at hwritten
      refine Ends.bind (Q := fun _ s' => s'.fs = fs') (Ends.modify rfl) ?_
      rintro - s₂ rfl
      exact Ends.modify ⟨archive, hmakes, hwritten.1, hwritten.2⟩

end ArchiveFiles

namespace Program

open Cli (CommandLine)
open Settings (Config)

variable {around around' : Surroundings} {args args' : List Bytes} {line line' : CommandLine}
  {a : ArchiveFiles} {s s' : Session} {output : Path}

/-- An output that everybody may write: its owner puts an archive there, and a call by somebody else
fails and leaves it empty. -/
example :
    let o := Node.file ⟨0o666, 5, ⟨1, 1⟩⟩ [111]
    let called (user : UInt32) : Outcome :=
      let fs : FileSystem := ⟨.directory ⟨0o777, 0, .root⟩ [([111], o)], [], 0, ⟨⟨user, 1⟩, []⟩⟩
      run ⟨.ofText "/", []⟩ (["archive", "-o", "o", "o"].map Bytes.ofText)
        (.new fs ⟨.domain [], 0, fun _ => .dropped⟩)
    let size (o : Outcome) := (o.session.fs.stat (.ofText "o")).toOption.map Node.size
    (called 1).exitCode = 0 ∧ size (called 1) ≠ some 0
      ∧ (called 2).exitCode = 1 ∧ size (called 2) = some 0 := by decide +kernel

end Program

end DeployClient
