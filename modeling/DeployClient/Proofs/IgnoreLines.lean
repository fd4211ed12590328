import DeployClient.Proofs.Contents
import DeployClient.Proofs.GivenUp

/-!
What ignore lines do to an archive as a whole.

A further line makes an archive smaller, or larger if it re-includes. This holds for a fixed
list of inputs: the number of inputs decides from where names are asked about, so what the same
lines leave out of a directory depends on whether it is archived alone.
-/

namespace DeployClient.Archive

open Tar (Member)
open Ignore (Reincluding)

variable {fs : FileSystem} {dir : Path} {paths : List Path} {options options' : Options}
  {lines : List String} {line : String} {w w' v v' : Writer} {a b : Nat}

/-! ### Beginning an archive -/

lemma Prepared.fresh (h : Prepared fs false options dir w) : Fresh w :=
  ⟨h.claims, h.members, h.filesOnly⟩

/-- Where the working directory is known and the lines compile, an archive can be begun. -/
lemma exists_prepare {patterns : Ignore.Patterns} (filesOnly : Bool) (hpaths : paths ≠ [])
    (hdir : workingDirectory fs options.workingDir = .ok dir)
    (hlines : (Ignore.readFiles fs dir options.ignoreFiles).lines = .ok lines)
    (hcompile : Ignore.Patterns.compile dir lines = .ok patterns) :
    ∃ w, prepare fs filesOnly paths options = .ok (dir, w) ∧ w.patterns = patterns := by
  have hload := Ignore.load_eq_ok_iff.mpr ⟨lines, hlines, hcompile⟩
  unfold prepare
  rw [if_neg (by simpa using hpaths), hdir]
  simp only [hload]
  exact ⟨_, rfl, rfl⟩

/-! ### One more line -/

/-- What a further line may do to the entries of an archive. -/
def Shifts (line : String) (entries entries' : List Member) : Prop :=
  (¬ Reincluding line → entries' ⊆ entries) ∧ (Reincluding line → entries ⊆ entries')

lemma shifts_of_runs (hfs : fs.root.isProper = true) (hdir : dir.IsNormal) (hw : Fresh w)
    (hv : Fresh v) (hcompile : Ignore.Patterns.compile dir lines = .ok w.patterns)
    (hcompile' : Ignore.Patterns.compile dir (lines ++ [line]) = .ok v.patterns)
    (hrun : archiveInputs fs dir (paths.length = 1) paths w = .ok a w')
    (hrun' : archiveInputs fs dir (paths.length = 1) paths v = .ok b v') :
    Shifts line w'.members v'.members := by
  rw [archiveInputs_eq_runAll] at hrun hrun'
  have hops : ∀ op ∈ buildOps fs dir paths, Called fs dir paths op :=
    fun op hop => called_of_mem hfs hdir hop
  have hfurther := Ignore.isIgnored_of_further_line hcompile hcompile'
  refine ⟨fun hplain =>
      members_subset_of_kept hops hv hw hrun' hrun fun name isDirectory hkept => ?_,
    fun hre => members_subset_of_kept hops hw hv hrun hrun' fun name isDirectory hkept => ?_⟩
  · by_contra hignored
    have := (hfurther name isDirectory).1 hplain (by simpa using hignored)
    simp [hkept] at this
  · exact (hfurther name isDirectory).2 hre hkept

/-- **A further ignore line moves a whole archive in one direction.** After a plain line every
verdict that left something out stands, and the archive, with the directories above files that
were given, holds nothing that it did not hold before. After a line that re-includes it is the
other way round. -/
theorem archive_of_further_line (hfs : fs.root.isProper = true) (lines : List String)
    (line : String) :
    (∀ root p p', Ignore.Patterns.compile root lines = .ok p →
      Ignore.Patterns.compile root (lines ++ [line]) = .ok p' → ∀ name isDirectory,
        (¬ Reincluding line → p.isIgnored name isDirectory = true →
          p'.isIgnored name isDirectory = true)
        ∧ (Reincluding line → p.isIgnored name isDirectory = false →
          p'.isIgnored name isDirectory = false))
    ∧ (∀ (dir : Path) (paths : List Path) (w v w' v' : Writer) (a b : Nat), dir.IsNormal →
      Fresh w → Fresh v → Ignore.Patterns.compile dir lines = .ok w.patterns →
      Ignore.Patterns.compile dir (lines ++ [line]) = .ok v.patterns →
      archiveInputs fs dir (paths.length = 1) paths w = .ok a w' →
      archiveInputs fs dir (paths.length = 1) paths v = .ok b v' →
      Shifts line w'.members v'.members)
    ∧ ∀ (dir : Path) (paths : List Path) (options options' : Options) (p p' : Ignore.Patterns),
      options'.workingDir = options.workingDir →
      workingDirectory fs options.workingDir = .ok dir →
      (Ignore.readFiles fs dir options.ignoreFiles).lines = .ok lines →
      (Ignore.readFiles fs dir options'.ignoreFiles).lines = .ok (lines ++ [line]) →
      Ignore.Patterns.compile dir lines = .ok p →
      Ignore.Patterns.compile dir (lines ++ [line]) = .ok p' →
      ¬ (build fs false paths options).Aborted → ¬ (build fs false paths options').Aborted →
      Shifts line (entriesOf fs false paths options) (entriesOf fs false paths options') := by
  refine ⟨fun root p p' h h' => Ignore.isIgnored_of_further_line h h',
    fun dir paths w v w' v' a b hdir hw hv h h' => shifts_of_runs hfs hdir hw hv h h', ?_⟩
  intro dir paths options options' p p' hsame hdir hlines hlines' hcompile hcompile' hdone hdone'
  by_cases hpaths : paths = []
  · -- nothing is archived in either case
    subst hpaths
    have hnone : ∀ o, entriesOf fs false [] o = [] := fun o => rfl
    rw [hnone, hnone]
    exact ⟨fun _ => List.Subset.refl _, fun _ => List.Subset.refl _⟩
  · obtain ⟨w, hw, rfl⟩ := exists_prepare false hpaths hdir hlines hcompile
    obtain ⟨v, hv, rfl⟩ := exists_prepare false hpaths (hsame ▸ hdir) hlines' hcompile'
    obtain ⟨a, w', hall⟩ := completed_of_not_aborted hfs hw hdone
    obtain ⟨b, v', hall'⟩ := completed_of_not_aborted hfs hv hdone'
    rw [hall.entriesOf_eq, hall'.entriesOf_eq]
    have hprep := prepared_of_prepare hw
    exact shifts_of_runs hfs hprep.normal hprep.fresh (prepared_of_prepare hv).fresh hcompile
      hcompile' hall.run hall'.run

/-- A file that is left out until a second ignore file takes it back; then it brings its directory
with it. -/
theorem archive_of_further_line_taken_back :
    let file := fun (text : String) => Node.file ⟨0o644, 5, .root⟩ (Bytes.ofText text)
    let fs : FileSystem := ⟨.directory ⟨0o755, 0, .root⟩ [(Bytes.ofText "i", file "*.log\n"),
      (Bytes.ofText "j", file "!keep.log\n"),
      (Bytes.ofText "d", .directory ⟨0o755, 6, .root⟩ [(Bytes.ofText "keep.log", file "k")])],
      [], 0, .root⟩
    let paths := [Path.ofText "d/keep.log"]
    let one : Options := { Options.plain with ignoreFiles := [.ofText "i"] }
    let two : Options := { Options.plain with ignoreFiles := [.ofText "i", .ofText "j"] }
    Reincluding "!keep.log"
      ∧ Shifts "!keep.log" (entriesOf fs false paths one) (entriesOf fs false paths two)
      ∧ (entriesOf fs false paths one).map Member.name = []
      ∧ (entriesOf fs false paths two).map Member.name
        = [Bytes.ofText "d", Bytes.ofText "d/keep.log"] := by
  intro file fs paths one two
  have hproper : fs.root.isProper = true := by decide
  have hone : ¬ (build fs false paths one).Aborted :=
    not_aborted_of_empty (by decide +kernel)
  have htwo : ¬ (build fs false paths two).Aborted :=
    not_aborted_of_ok (ok_of_toBool (by decide +kernel))
  obtain ⟨p, hp⟩ : ∃ p, Ignore.Patterns.compile ⟨[Bytes.slash]⟩ ["*.log"] = .ok p :=
    exists_ok_of_toBool (by decide +kernel)
  obtain ⟨p', hp'⟩ : ∃ p, Ignore.Patterns.compile ⟨[Bytes.slash]⟩ ["*.log", "!keep.log"] = .ok p :=
    exists_ok_of_toBool (by decide +kernel)
  refine ⟨by decide, ?_, by decide +kernel, by decide +kernel⟩
  exact (archive_of_further_line hproper ["*.log"] "!keep.log").2.2 ⟨[Bytes.slash]⟩ paths
    one two p p'
    rfl (by decide +kernel) (by decide +kernel) (by decide +kernel) hp hp' hone htwo

/-! ### One directory alone -/

lemma exists_file_of_isFile {n : Node} (h : n.isFile = true) :
    ∃ stamp data, n = .file stamp data := by
  cases n with
  | file stamp data => exact ⟨stamp, data, rfl⟩
  | _ => simp [Node.isFile] at h

/-- **A file is left out by the name that it has below the base.** -/
theorem left_out_iff_ignored {inputs : List Path} {patterns : Ignore.Patterns} {p : Path} {n : Node}
    {name : Bytes} (hfs : fs.root.isProper = true)
    (hdir : workingDirectory fs options.workingDir = .ok dir)
    (hload : (Ignore.load fs dir options.ignoreFiles).1 = .ok patterns)
    (hc : Candidate fs dir inputs p n) (hn : n.isFile = true)
    (hnamed : Path.nameBelow (baseOf fs dir inputs) p = .named name) (hne : name ≠ baseName)
    (hdone : ¬ (build fs false inputs options).Aborted) :
    (∀ m ∈ entriesOf fs false inputs options, m.name ≠ name)
      ↔ patterns.isIgnored name false = true := by
  have hinputs : inputs ≠ [] := by
    obtain ⟨root, d, ⟨input, hinput, -⟩, -⟩ := hc
    exact List.ne_nil_of_mem hinput
  obtain ⟨lines, hlines, hcompile⟩ := Ignore.load_eq_ok_iff.mp hload
  obtain ⟨w, hw, rfl⟩ := exists_prepare false hinputs hdir hlines hcompile
  obtain ⟨a, w', hall⟩ := completed_of_not_aborted hfs hw hdone
  have hprep := prepared_of_prepare hw
  have hrun := hall.run
  rw [archiveInputs_eq_runAll] at hrun
  obtain ⟨rs, hrs⟩ := exists_accounts hprep.claims hprep.members hrun
  obtain ⟨stamp, data, rfl⟩ := exists_file_of_isFile hn
  rw [hall.entriesOf_eq]
  constructor
  · intro hout
    by_contra hkept
    obtain ⟨m, hm⟩ := exists_memberAs name (n := .file stamp data) rfl
    obtain rfl := name_of_memberAs hm
    refine hout m (hrs.mem_of_wanted hfs hprep.normal hprep.filesOnly hc ⟨hnamed, hne, ?_, hm⟩) rfl
    simpa [Node.isDirectory] using hkept
  · rintro hignored m hm rfl
    rw [hrs.entries] at hm
    obtain ⟨r, hr, rfl⟩ := List.mem_map.mp hm
    obtain ⟨hseen, hwanted, -⟩ := hrs.origin_wanted (fun _ => called_of_mem hfs hprep.normal)
      hprep.filesOnly hr
    obtain ⟨-, hnode⟩ := hseen.unique (hrs.of_candidate hfs hprep.normal hc).1 hwanted.named hnamed
    have hkept := hwanted.kept
    rw [hnode] at hkept
    exact absurd (hignored.symm.trans hkept) (by simp)

/-- **The number of inputs decides which name of a file the patterns are asked about.** A file
below a directory inside of the working directory is judged by its name below that directory if
the directory is archived alone, and by its name below the working directory if there is another
input. The verdicts are the same if the patterns float over the directory. -/
theorem left_out_below_directory {d root p : Path} {k n : Node} {patterns : Ignore.Patterns}
    {full : Bytes} (hfs : fs.root.isProper = true)
    (hdir : workingDirectory fs options.workingDir = .ok dir)
    (hload : (Ignore.load fs dir options.ignoreFiles).1 = .ok patterns)
    (hroot : Path.resolveWithin dir d = some root) (hk : fs.lstat root = .ok k)
    (hkdir : k.isDirectory = true) (hinside : root ≠ dir) (hp : Node.Descends root k p n)
    (hn : n.isFile = true) (hfull : Path.nameBelow dir p = .named full) :
    ∃ front rest, front ≠ [] ∧ rest ≠ [] ∧ full = Path.joinNames (front ++ rest)
      ∧ Path.nameBelow dir root = .named (Path.joinNames front)
      ∧ Path.nameBelow root p = .named (Path.joinNames rest)
      ∧ (¬ (build fs false [d] options).Aborted →
        ((∀ m ∈ entriesOf fs false [d] options, m.name ≠ Path.joinNames rest)
          ↔ patterns.isIgnored (Path.joinNames rest) false = true))
      ∧ (∀ e, ¬ (build fs false [d, e] options).Aborted →
        ((∀ m ∈ entriesOf fs false [d, e] options, m.name ≠ full)
          ↔ patterns.isIgnored full false = true))
      ∧ (Ignore.Patterns.Floats patterns.rules front →
        patterns.isIgnored full false = patterns.isIgnored (Path.joinNames rest) false) := by
  have hnormal := isNormal_of_workingDirectory hdir
  obtain ⟨hrootNormal, hrootIn⟩ := Path.resolveWithin_spec hnormal hroot
  obtain ⟨hpNormal, hpIn, -, -⟩ := descends_spec hfs hrootNormal hk hp
  obtain ⟨bs, front, rest, hfront, hrest, rfl, hnameRoot, hnameBelow⟩ :=
    Path.exists_stages hnormal hrootNormal hpNormal hrootIn hpIn hfull
  have hfrontNil : front ≠ [] := by
    rintro rfl
    exact hinside (by rw [hfront.path, hfront.base, List.append_nil])
  have hrestNil : rest ≠ [] := by
    rintro rfl
    -- the file would be the directory
    obtain rfl : p = root := by rw [hrest.path, hrest.base, List.append_nil]
    obtain rfl := (descends_spec hfs hrootNormal hk hp).2.2.2 k hk
    obtain ⟨stamp, data, rfl⟩ := exists_file_of_isFile hn
    simp [Node.isDirectory] at hkdir
  have hbothNil : front ++ rest ≠ [] := by simp [hfrontNil]
  rw [Path.nameOf_of_ne_nil hrestNil] at hnameBelow
  rw [Path.nameOf_of_ne_nil hfrontNil] at hnameRoot
  rw [Path.nameOf_of_ne_nil hbothNil] at hfull ⊢
  have hrestNames : ∀ n ∈ rest, Path.IsName n := fun n hn =>
    hrest.isName n (List.mem_append_right _ hn)
  have hbothNames : ∀ n ∈ front ++ rest, Path.IsName n := by
    intro n hn
    rcases List.mem_append.mp hn with hn | hn
    · exact hfront.isName n (List.mem_append_right _ hn)
    · exact hrestNames n hn
  have hne : ∀ {names : List Bytes}, (∀ n ∈ names, Path.IsName n) → names ≠ [] →
      Path.joinNames names ≠ baseName := by
    intro names hnames hnil he
    rw [← Path.nameOf_of_ne_nil hnil] at he
    exact hnil ((Path.nameOf_eq_baseName_iff hnames).mp he)
  have hcandidate : ∀ inputs, d ∈ inputs → Candidate fs dir inputs p n :=
    fun inputs hd => ⟨root, k, ⟨d, hd, hroot, hk⟩, hp⟩
  refine ⟨front, rest, hfrontNil, hrestNil, rfl, hnameRoot, hnameBelow, fun hdone => ?_,
    fun e hdone => ?_, fun hfloat => ?_⟩
  · have hbase : baseOf fs dir [d] = root := by
      rw [baseOf_of_directory (List.mem_singleton_self d) hroot hk hkdir,
        if_pos List.length_singleton]
    exact left_out_iff_ignored hfs hdir hload (hcandidate _ (by simp)) hn (hbase ▸ hnameBelow)
      (hne hrestNames hrestNil) hdone
  · have hbase : baseOf fs dir [d, e] = dir := baseOf_of_many (by simp)
    exact left_out_iff_ignored hfs hdir hload (hcandidate _ (by simp)) hn (hbase ▸ hfull)
      (hne hbothNames hbothNil) hdone
  · have hslash := Ignore.head?_root_of_load hnormal hload
    rw [Ignore.Patterns.isIgnored_nameOf hslash hbothNames hbothNil,
      Ignore.Patterns.isIgnored_nameOf hslash hrestNames hrestNil,
      hfloat.asked?_append hbothNames hrestNil]

/-- One file, by its two names. -/
theorem left_out_below_directory_secret :
    let file := fun (text : String) => Node.file ⟨0o644, 5, .root⟩ (Bytes.ofText text)
    let fs : FileSystem := ⟨.directory ⟨0o755, 0, .root⟩ [
      (Bytes.ofText "d", .directory ⟨0o755, 6, .root⟩ [(Bytes.ofText "secret", file "s")]),
      (Bytes.ofText "e", file "e"), (Bytes.ofText ".paasignore", file "/d/secret\n")], [], 0, .root⟩
    let alone := [Path.ofText "d"]
    let both := [Path.ofText "d", .ofText "e"]
    ∃ patterns front rest, (Ignore.load fs (.ofText "/") [defaultIgnoreFile]).1 = .ok patterns
      ∧ Bytes.ofText "d/secret" = Path.joinNames (front ++ rest)
      ∧ Path.nameBelow (.ofText "/d") (.ofText "/d/secret") = .named (Path.joinNames rest)
      ∧ ((∀ m ∈ entriesOf fs false alone .forUpload, m.name ≠ Path.joinNames rest)
        ↔ patterns.isIgnored (Path.joinNames rest) false = true)
      ∧ ((∀ m ∈ entriesOf fs false both .forUpload, m.name ≠ Bytes.ofText "d/secret")
        ↔ patterns.isIgnored (Bytes.ofText "d/secret") false = true) := by
  intro file fs alone both
  have hproper : fs.root.isProper = true := by decide
  obtain ⟨patterns, hload⟩ :
      ∃ patterns, (Ignore.load fs (.ofText "/") [defaultIgnoreFile]).1 = .ok patterns :=
    exists_ok_of_toBool (by decide +kernel)
  have halone : ¬ (build fs false alone .forUpload).Aborted :=
    not_aborted_of_ok (ok_of_toBool (by decide +kernel))
  have hboth : ¬ (build fs false both .forUpload).Aborted :=
    not_aborted_of_ok (ok_of_toBool (by decide +kernel))
  have hdir : workingDirectory fs Options.forUpload.workingDir = .ok (.ofText "/") := by
    decide +kernel
  have hroot : Path.resolveWithin (.ofText "/") (.ofText "d") = some (.ofText "/d") := by
    decide +kernel
  have hmem : (Bytes.ofText "secret", file "s") ∈
      (Node.directory ⟨0o755, 6, .root⟩ [(Bytes.ofText "secret", file "s")]).entries := by
    simp [Node.entries]
  have hfull :
      Path.nameBelow (.ofText "/") (.ofText "/d/secret") = .named (Bytes.ofText "d/secret") := by
    decide +kernel
  obtain ⟨front, rest, -, -, hnames, -, hname, hout, hout', -⟩ :=
    left_out_below_directory hproper hdir
    hload hroot rfl rfl (by decide +kernel) (.child .self hmem) rfl hfull
  exact ⟨patterns, front, rest, hload, hnames, hname, hout halone, hout' _ hboth⟩

/-- **The same patterns do not leave the same out of a directory that is archived alone.** The
line names a file from the working directory, which holds the ignore file. With a second input the
file is left out, and alone it is archived. -/
theorem left_out_differs_alone :
    let file := fun (text : String) => Node.file ⟨0o644, 5, .root⟩ (Bytes.ofText text)
    let fs : FileSystem := ⟨.directory ⟨0o755, 0, .root⟩ [
      (Bytes.ofText "d", .directory ⟨0o755, 6, .root⟩ [(Bytes.ofText "secret", file "s")]),
      (Bytes.ofText "e", file "e"), (Bytes.ofText ".paasignore", file "/d/secret\n")], [], 0, .root⟩
    let alone := [Path.ofText "d"]
    let both := [Path.ofText "d", .ofText "e"]
    (build fs false alone .forUpload).result = .ok ()
      ∧ (build fs false both .forUpload).result = .ok ()
      ∧ (entriesOf fs false alone .forUpload).map Member.name = [Bytes.ofText "secret"]
      ∧ (entriesOf fs false both .forUpload).map Member.name
        = [Bytes.ofText "d", Bytes.ofText "e"] := by
  intro file fs alone both
  exact ⟨ok_of_toBool (by decide +kernel), ok_of_toBool (by decide +kernel), by decide +kernel,
    by decide +kernel⟩

end DeployClient.Archive
