import DeployClient.Proofs.Exactness
import DeployClient.Proofs.StraightPaths
import DeployClient.Proofs.Uploads

/-!
The directory of the container file as what is deployed.

The container file is found by following links, and an archive leaves links alone. So the two
agree on the directory of the container file where no link stands in its place: then the archive
holds what is in it, the container file among the rest. A link in its place is archived itself.
Two dots after a link are the other way for them to differ: the normal form takes them for the
directory that holds the link.
-/

namespace DeployClient

open Archive (Candidate Completed Prepared Wanted baseOf memberAs lastWriter)
open DeployClient.Path (IsName lastPart)
open Tar (Member)

variable {fs : FileSystem} {dir root path : Path} {app : String} {c : ContainerFile} {d n : Node}
  {patterns : Ignore.Patterns} {archive : Bytes} {input : Path}

/-! ### The container file -/

lemma ContainerFile.isFile_of_locate {p : Path} (h : locate fs app path = .ok p) :
    fs.isFile p = true := by
  unfold locate at h
  split at h
  · simp at h
  · next n hn =>
    split at h
    · split at h
      · next q hq =>
        obtain rfl := Except.ok.inj h
        exact List.find?_some hq
      · simp at h
    · split at h
      · next hfile =>
        obtain rfl := Except.ok.inj h
        rw [FileSystem.isFile, hn]
        exact hfile
      · simp at h

/-- What is resolved is a file. -/
lemma ContainerFile.exists_stat (h : (resolve fs app path).1 = .ok c) :
    ∃ k, fs.stat c.path = .ok k ∧ k.isFile = true := by
  unfold resolve at h
  split at h
  · simp at h
  · next p hp =>
    have hfile := isFile_of_locate hp
    simp only at h
    split at h
    · obtain rfl := Except.ok.inj h
      unfold FileSystem.isFile at hfile
      split at hfile
      · next k hk => exact ⟨k, hk, hfile⟩
      · simp at hfile
    · simp at h

/-! ### An archive of one input -/

namespace Archive

/-- The entries of an archive are what lies below a directory and passes the filters, under the
names that lead there from the directory. -/
structure Contents (patterns : Ignore.Patterns) (root : Path) (d : Node) (entries : List Member) :
    Prop where
  unique : (entries.map Member.name).Nodup
  mem_iff : ∀ m, m ∈ entries ↔ ∃ p k, Node.Descends root d p k ∧ Wanted patterns root p k m

/-- Nothing in an archive but one link, and directories above it. -/
def OnlyLink (link : Node) (entries : List Member) : Prop :=
  ∀ m ∈ entries, m.kind = .directory ∨ memberAs m.name link = some m

variable {w w' : Writer} {count : ℕ} {rs : List Record}

lemma candidate_single_iff {p : Path} {k : Node} (hroot : Path.resolveWithin dir input = some root)
    (hl : fs.lstat root = .ok d) :
    Candidate fs dir [input] p k ↔ Node.Descends root d p k := by
  constructor
  · rintro ⟨root', d', ⟨input', hmem, hroot', hl'⟩, h⟩
    obtain rfl := List.mem_singleton.mp hmem
    obtain rfl := Option.some.inj (hroot.symm.trans hroot')
    obtain rfl := Except.ok.inj (hl.symm.trans hl')
    exact h
  · exact fun h => ⟨root, d, ⟨input, List.mem_singleton_self _, hroot, hl⟩, h⟩

/-- A single directory becomes the root of its archive. -/
lemma Accounts.contents (hfs : fs.root.isProper = true) (hdir : dir.IsNormal)
    (hw : w.filesOnly = false) (hroot : Path.resolveWithin dir input = some root)
    (hl : fs.lstat root = .ok d) (hd : d.isDirectory = true)
    (h : Accounts (buildOps fs dir [input]) w w' count rs) :
    Contents w.patterns root d w'.members := by
  have hbase : baseOf fs dir [input] = root := by
    rw [baseOf_of_directory (List.mem_singleton_self _) hroot hl hd]
    rfl
  refine ⟨h.nodup_names, fun m => ⟨fun hm => ?_, ?_⟩⟩
  · rw [h.entries] at hm
    obtain ⟨r, hr, rfl⟩ := List.mem_map.mp hm
    obtain ⟨-, hwanted, hc | habove⟩ := h.origin_wanted (fun _ => called_of_mem hfs hdir) hw hr
    · rw [hbase] at hwanted
      exact ⟨_, _, (candidate_single_iff hroot hl).mp hc, hwanted⟩
    · -- there is no file that could have brought the directories above it
      obtain ⟨-, -, file, k, m, ⟨input', hmem, hfile, hk⟩, hnd, -⟩ := habove
      obtain rfl := List.mem_singleton.mp hmem
      obtain rfl := Option.some.inj (hroot.symm.trans hfile)
      obtain rfl := Except.ok.inj (hl.symm.trans hk)
      simp [hd] at hnd
  · rintro ⟨p, k, hdesc, hwanted⟩
    rw [← hbase] at hwanted
    exact h.mem_of_wanted hfs hdir hw ((candidate_single_iff hroot hl).mpr hdesc) hwanted

/-- A single link is archived itself. -/
lemma Accounts.onlyLink (hfs : fs.root.isProper = true) (hdir : dir.IsNormal)
    (hw : w.filesOnly = false) (hroot : Path.resolveWithin dir input = some root)
    (hl : fs.lstat root = .ok d) (hd : d.isDirectory = false)
    (h : Accounts (buildOps fs dir [input]) w w' count rs) : OnlyLink d w'.members := by
  intro m hm
  rw [h.entries] at hm
  obtain ⟨r, hr, rfl⟩ := List.mem_map.mp hm
  obtain ⟨-, hwanted, hc | habove⟩ := h.origin_wanted (fun _ => called_of_mem hfs hdir) hw hr
  · obtain ⟨-, hnode⟩ := ((candidate_single_iff hroot hl).mp hc).eq_of_not_directory hd
    right
    rw [← hnode]
    exact hwanted.member
  · left
    have hdirectory := habove.1
    rw [← decide_eq_isDirectory (kind_of_memberAs hwanted.member)] at hdirectory
    exact of_decide_eq_true hdirectory

/-- What stands in a directory under a name of text is wanted under that name, unless it is
ignored or of no kind that an archive can hold. -/
lemma wanted_child {name : Bytes} {kind : Kind} (hroot : root.IsNormal) (hname : IsName name)
    (htext : (Bytes.toText? name).isSome = true) (hkind : Kind.ofNode? n = some kind)
    (hkept : patterns.isIgnored name n.isDirectory = false) :
    ∃ m, Wanted patterns root (root.child name) n m ∧ m.name = name := by
  obtain ⟨m, hm⟩ := exists_memberAs name hkind
  obtain rfl := name_of_memberAs hm
  obtain ⟨bs, rfl, hbs⟩ := hroot
  have hbelow : Path.Below (.ofNames true bs) ((Path.ofNames true bs).child m.name) bs [m.name] :=
    ⟨rfl, Path.child_ofNames hbs hname, Path.forall_isName_append hbs hname⟩
  have hnamed : Path.nameBelow (.ofNames true bs) ((Path.ofNames true bs).child m.name)
      = .named m.name := by
    rw [Path.nameBelow_of_below hbelow, if_pos (by simpa using htext),
      Path.nameOf_of_ne_nil (by simp), Path.joinNames_singleton]
  refine ⟨m, ⟨hnamed, ?_, hkept, hm⟩, rfl⟩
  intro hbase
  exact Path.not_isName_baseName (hbase ▸ hname)

/-- Where no other is named, the working directory is the current one. -/
lemma eq_of_workingDirectory (hfs : fs.root.isProper = true) (hrooted : FileSystem.Rooted fs)
    (h : workingDirectory fs none = .ok dir) : dir = .ofNames true fs.cwd := by
  obtain ⟨n, hn⟩ := Option.isSome_iff_exists.mp hrooted.cwd
  have hcwd : fs.currentDir = .ok (.ofNames true fs.cwd) := by rw [FileSystem.currentDir, hn]
  simp only [workingDirectory, hcwd] at h
  rw [← Except.ok.inj h, Path.normalize_ofNames (FileSystem.isName_of_descend? hfs hn)]

/-- A directory that is reached without leading up is the input itself, unless the input is a
link. -/
lemma eq_or_isSymlink (hfs : fs.root.isProper = true) (hrooted : FileSystem.Rooted fs)
    (hdir : workingDirectory fs none = .ok dir)
    (hroot : Path.resolveWithin dir input = some root) (hl : fs.lstat root = .ok n)
    (hstraight : [Bytes.dot, Bytes.dot] ∉ FileSystem.steps input.bytes)
    (hd : fs.stat input = .ok d) (hdirectory : d.isDirectory = true) :
    n = d ∨ n.isSymlink = true := by
  obtain rfl := eq_of_workingDirectory hfs hrooted hdir
  unfold Path.resolveWithin at hroot
  obtain ⟨-, rfl⟩ : _ ∧ _ = root := by simpa using hroot
  rcases hlink : n.isSymlink with _ | _
  · exact .inl (FileSystem.eq_of_straight hfs hrooted hstraight hd hdirectory hl hlink)
  · exact .inr rfl

end Archive

/-! ### The directory that is deployed -/

open Archive (Contents OnlyLink)

/-- **The directory of the container file is the build context**, where no link stands in its
place: what is uploaded holds all that is in the directory that holds the container file, named
from there, and so the container file itself. A link in the place of that directory is uploaded
instead of it. Only two dots can lead to yet another place. -/
theorem context_archived (hfs : fs.root.isProper = true) (htop : fs.root.isDirectory = true)
    (hc : (ContainerFile.resolve fs app path).1 = .ok c)
    (hdir : Archive.workingDirectory fs none = .ok dir)
    (hroot : Path.resolveWithin dir c.contextDir = some root)
    (harchived : Upload.Archived fs false (Deploy.deployedPaths (some c) []) archive) :
    ∃ holder patterns w, fs.stat c.contextDir = .ok holder ∧ holder.isDirectory = true
      ∧ (∃ n, (lastPart c.path.bytes, n) ∈ holder.entries)
      ∧ (Ignore.load fs dir Archive.Options.forUpload.ignoreFiles).1 = .ok patterns
      ∧ lastWriter fs false [c.contextDir] .forUpload = some w
      ∧ archive = Gzip.encode Gzip.best (Tar.encode w.members)
      ∧ (fs.lstat root = .ok holder → Contents patterns root holder w.members
        ∧ ((Bytes.toText? (lastPart c.path.bytes)).isSome = true →
          patterns.isIgnored (lastPart c.path.bytes) false = false →
          lastPart c.path.bytes ∈ w.members.map Member.name))
      ∧ (∀ stamp target, fs.lstat root = .ok (.symlink stamp target) →
        OnlyLink (.symlink stamp target) w.members)
      ∧ ([Bytes.dot, Bytes.dot] ∉ FileSystem.steps c.contextDir.bytes →
        fs.lstat root = .ok holder
          ∨ ∃ stamp target, fs.lstat root = .ok (.symlink stamp target)) := by
  -- the container file stands in the directory that its path tells
  have hrooted : FileSystem.Rooted fs := by
    refine ⟨htop, ?_⟩
    rcases hcwd : fs.nodeAt? fs.cwd with _ | n
    · simp [Archive.workingDirectory, FileSystem.currentDir, hcwd] at hdir
    · rfl
  obtain ⟨k, hk, hfile⟩ := ContainerFile.exists_stat hc
  have hnotdir : k.isDirectory = false := by
    cases k with
    | file stamp data => rfl
    | _ => simp [Node.isFile] at hfile
  have hname := FileSystem.isName_lastPart hrooted hk hnotdir
  obtain ⟨holder, n, hholder, hholderDir, hmem, hn⟩ :=
    FileSystem.exists_entry_of_stat hrooted hk hnotdir
  -- what the run has written
  have hresult : (Archive.build fs false [c.contextDir] .forUpload).result = .ok () :=
    harchived.result
  have hreceived : (Archive.build fs false [c.contextDir] .forUpload).received = some archive :=
    harchived.received
  rcases Archive.completed_or_error fs false [c.contextDir] .forUpload with
    ⟨dir', w, count, w', hall⟩ | ⟨e, -, he⟩
  swap
  · simp [hresult] at he
  have hprep := Archive.prepared_of_prepare hall.prepare
  obtain rfl : dir' = dir := Except.ok.inj (hprep.directory.symm.trans hdir)
  have hrun := hall.run
  rw [Archive.archiveInputs_eq_runAll] at hrun
  obtain ⟨rs, hrs⟩ := Archive.exists_accounts hprep.claims hprep.members hrun
  have harchive : archive = Gzip.encode Gzip.best (Tar.encode w'.members) := by
    have hbytes := (Archive.nodup_lastWriter hall.lastWriter).2
    rw [hreceived] at hbytes
    show archive = Gzip.encode Archive.Options.forUpload.compression (Tar.encode w'.members)
    simpa [Archive.Writer.bytes, hall.sink] using hbytes
  refine ⟨holder, w.patterns, _, hholder, hholderDir, ⟨n, hmem⟩, hprep.patterns, hall.lastWriter,
    harchive, fun hl => ?_, fun stamp target hl => ?_, fun hstraight => ?_⟩
  · have hcontents : Contents w.patterns root holder w'.members :=
      Archive.Accounts.contents hfs hprep.normal hprep.filesOnly hroot hl hholderDir hrs
    refine ⟨hcontents, fun htext hkept => ?_⟩
    have hkind : ∃ kind, Archive.Kind.ofNode? n = some kind ∧ n.isDirectory = false := by
      rcases hn with rfl | hlink
      · cases n with
        | file stamp data => exact ⟨.file, rfl, rfl⟩
        | _ => simp [Node.isFile] at hfile
      · cases n with
        | symlink stamp target => exact ⟨.symlink, rfl, rfl⟩
        | _ => simp [Node.isSymlink] at hlink
    obtain ⟨kind, hkind, hnd⟩ := hkind
    have hlet : w.patterns.isIgnored (lastPart c.path.bytes) n.isDirectory = false := by
      rw [hnd]
      exact hkept
    obtain ⟨m, hm, hmname⟩ := Archive.wanted_child
      (Path.resolveWithin_spec hprep.normal hroot).1 hname htext hkind hlet
    exact List.mem_map.mpr ⟨m, (hcontents.mem_iff m).mpr ⟨_, _, .child .self hmem, hm⟩, hmname⟩
  · have honly : OnlyLink (.symlink stamp target) w'.members :=
      Archive.Accounts.onlyLink hfs hprep.normal hprep.filesOnly hroot hl rfl hrs
    exact honly
  · obtain ⟨n, hl⟩ := hrs.exists_lstat (List.mem_singleton_self _) hroot
    rcases Archive.eq_or_isSymlink hfs hrooted hdir hroot hl hstraight hholder hholderDir with
      rfl | hlink
    · exact .inl hl
    · cases n with
      | symlink stamp target => exact .inr ⟨stamp, target, hl⟩
      | _ => simp [Node.isSymlink] at hlink

/-- A directory with a container file. -/
theorem context_archived_directory :
    let f := Node.file ⟨0o644, 5, .root⟩ [70]
    let ctx := Node.directory ⟨0o755, 6, .root⟩ [(Bytes.ofText "Dockerfile", f)]
    let fs : FileSystem := ⟨.directory ⟨0o755, 0, .root⟩ [([99], ctx)], [], 0, .root⟩
    ∃ c archive patterns w, (ContainerFile.resolve fs "web" (.ofText "c")).1 = .ok c
      ∧ Upload.Archived fs false (Deploy.deployedPaths (some c) []) archive
      ∧ lastWriter fs false [c.contextDir] .forUpload = some w
      ∧ archive = Gzip.encode Gzip.best (Tar.encode w.members)
      ∧ Contents patterns (.ofText "/c") ctx w.members
      ∧ Bytes.ofText "Dockerfile" ∈ w.members.map Member.name := by
  intro f ctx fs
  let c : ContainerFile := ⟨.ofText "c/Dockerfile", "F"⟩
  have hc : (ContainerFile.resolve fs "web" (.ofText "c")).1 = .ok c := by rfl
  have hresult : (Archive.build fs false (Deploy.deployedPaths (some c) []) .forUpload).result
      = .ok () := Archive.ok_of_toBool (by decide +kernel)
  have hroot : Path.resolveWithin (.ofText "/") c.contextDir = some (.ofText "/c") := by decide
  have hload : (Ignore.load fs (.ofText "/") Archive.Options.forUpload.ignoreFiles).1
      = .ok ⟨[47], []⟩ := by rfl
  obtain ⟨holder, patterns, w, hholder, -, -, hpatterns, hw, harchive, hcontents, -⟩ :=
    context_archived (by decide) rfl hc rfl hroot (Upload.archived_of_ok hresult)
  have hstat : fs.stat c.contextDir = .ok ctx := by rfl
  obtain rfl := Except.ok.inj (hstat.symm.trans hholder)
  obtain rfl := Except.ok.inj (hload.symm.trans hpatterns)
  obtain ⟨hcontents, hfile⟩ := hcontents rfl
  exact ⟨c, _, _, w, hc, Upload.archived_of_ok hresult, hw, harchive, hcontents,
    hfile (by decide) (by decide)⟩

/-- A link to that directory leads to the same container file, which is then left behind. -/
theorem context_left_behind_link :
    let f := Node.file ⟨0o644, 5, .root⟩ [70]
    let ctx := Node.directory ⟨0o755, 6, .root⟩ [(Bytes.ofText "Dockerfile", f)]
    let fs : FileSystem := ⟨.directory ⟨0o755, 0, .root⟩
      [([99], ctx), ([108], .symlink ⟨0o777, 7, .root⟩ [99])], [], 0, .root⟩
    ∃ c archive w, (ContainerFile.resolve fs "web" (.ofText "l")).1 = .ok c
      ∧ fs.stat c.contextDir = .ok ctx
      ∧ Archive.workingDirectory fs none = .ok (.ofText "/")
      ∧ Path.resolveWithin (.ofText "/") c.contextDir = some (.ofText "/l")
      ∧ Upload.Archived fs false (Deploy.deployedPaths (some c) []) archive
      ∧ lastWriter fs false [c.contextDir] .forUpload = some w
      ∧ lastPart c.path.bytes = Bytes.ofText "Dockerfile"
      ∧ w.members.map Member.name = [[108]] := by
  intro f ctx fs
  let c : ContainerFile := ⟨.ofText "l/Dockerfile", "F"⟩
  have hresult : (Archive.build fs false (Deploy.deployedPaths (some c) []) .forUpload).result
      = .ok () := Archive.ok_of_toBool (by decide +kernel)
  have hnames : (lastWriter fs false [c.contextDir] .forUpload).map
      (fun w => w.members.map Member.name) = some [[108]] := by decide +kernel
  obtain ⟨w, hw, hnames⟩ := Option.map_eq_some_iff.mp hnames
  exact ⟨c, _, w, by rfl, by rfl, by rfl, by decide, Upload.archived_of_ok hresult, hw, by decide,
    hnames⟩

end DeployClient
