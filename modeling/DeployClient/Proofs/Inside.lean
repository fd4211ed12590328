import DeployClient.Proofs.GivenUp
import DeployClient.Proofs.Rulings

/-!
The names in an archive cannot lead out of the place where it is unpacked, and nothing in it comes
from outside of the working directory.

However the inputs are spelt, they are resolved to paths in normal form. So every node that a run
judges lies below its base, and its name is made of the names between the two.
-/

namespace DeployClient.Archive

open Tar (Member)
open DeployClient.Path (IsName Below ofNames joinNames nameOf)
open Bytes (slash)

variable {fs : FileSystem} {dir base p q : Path} {inputs : List Path} {n : Node} {op : Op}
  {patterns : Ignore.Patterns} {filesOnly : Bool} {name : Bytes} {r : Record} {w w' : Writer}

/-! ### What a run judges -/

/-- The operation judges this node below this base: the node that it adds, or a directory above
its file. -/
inductive Op.Judges (base p : Path) (n : Node) : Op → Prop
  | path (fs : FileSystem) : Judges base p n (.path fs p base n)
  | file (fs : FileSystem) : Judges base p n (.file fs p base n)
  | above (fs : FileSystem) {file : Path} {k : Node} (parent : p ∈ parentsBelow file base)
      (lstat : fs.lstat p = .ok n) (isDirectory : n.isDirectory = true) :
      Judges base p n (.file fs file base k)

lemma Op.Judges.sighted (hop : Called fs dir inputs op) (h : op.Judges base p n) :
    base = baseOf fs dir inputs ∧ Sighted fs base p n := by
  cases h with
  | path =>
    cases hop with
    | path sighted _ => exact ⟨rfl, sighted⟩
  | file =>
    cases hop with
    | file sighted _ _ => exact ⟨rfl, sighted⟩
  | above _ parent lstat isDirectory =>
    cases hop with
    | file sighted _ _ => exact ⟨rfl, sighted.of_mem_parentsBelow parent lstat⟩

/-- What is written is of a node that was judged. -/
lemma Record.WrittenBy.judged (hop : Called fs dir inputs op)
    (h : r.WrittenBy patterns filesOnly op) :
    r.Made patterns filesOnly fs (baseOf fs dir inputs)
      ∧ op.Judges (baseOf fs dir inputs) r.entry.source r.node := by
  cases hop with
  | path sighted _ =>
    obtain ⟨hmade, rfl, rfl⟩ := h
    exact ⟨hmade, .path fs⟩
  | file sighted _ _ =>
    obtain ⟨hmade, ⟨rfl, rfl⟩ | ⟨himplied, -⟩⟩ := h
    · exact ⟨hmade, .file fs⟩
    · exact ⟨hmade, .above fs himplied.parent himplied.lstat himplied.isDirectory⟩
  | _ => exact h.elim

/-- The name of a node that is seen, as the patterns are asked about it: it does not begin with a
slash. -/
lemma Sighted.head?_relative (hp : Sighted fs base p n) (hroot : patterns.root.head? = some slash)
    (h : Path.nameBelow base p = .named name) : (patterns.relative name).head? ≠ some slash := by
  obtain ⟨bs, rest, hbelow, rfl⟩ := Below.of_named hp.normalBase hp.normal h
  have hrest : ∀ n ∈ rest, IsName n := fun n hn => hbelow.isName n (List.mem_append_right _ hn)
  rw [Ignore.relative_nameOf hroot hrest]
  exact Ignore.head?_nameOf hrest

lemma startsWith_baseOf (hdir : dir.IsNormal) :
    (baseOf fs dir inputs).startsWith dir = true := by
  unfold baseOf
  split
  · split
    · exact Path.startsWith_self dir
    · next hroot =>
      split
      · split
        · exact (Path.resolveWithin_spec hdir hroot).2
        · exact Path.startsWith_self dir
      · exact Path.startsWith_self dir
  · exact Path.startsWith_self dir

/-! ### Names of entries -/

/-- A name that leads nowhere but down. -/
structure Tame (filesOnly : Bool) (name : Bytes) : Prop where
  names : ∃ names, names ≠ [] ∧ (∀ n ∈ names, IsName n) ∧ name = joinNames names
  relative : name.head? ≠ some slash
  flat : filesOnly = true → slash ∉ name

lemma tame_joinNames {names : List Bytes} (hnil : names ≠ []) (h : ∀ n ∈ names, IsName n) :
    Tame false (joinNames names) :=
  ⟨⟨names, hnil, h, rfl⟩, Path.head?_joinNames h, by simp⟩

lemma tame_of_isName (h : IsName name) : Tame filesOnly name where
  names := ⟨[name], by simp, by simpa using h, by simp⟩
  relative := fun hs => h.2.1 (List.mem_of_mem_head? hs)
  flat := fun _ => h.2.1

/-- An entry and what it was made from: a node inside of the working directory, as it stands. In
an archive that keeps directories the name leads back from the base to that node. -/
structure Stems (fs : FileSystem) (dir base : Path) (filesOnly : Bool) (w : Writer) (m : Member)
    (source : Path) (n : Node) : Prop where
  claimed : (m.name, ⟨m.kind, source⟩) ∈ w.claims.taken
  normal : source.IsNormal
  inside : source.startsWith dir = true
  lstat : fs.lstat source = .ok n
  member : memberAs m.name n = some m
  rejoined : filesOnly = false → base.join ⟨m.name⟩ = source

/-- The name of an entry, and how it leads back to its source. -/
lemma EntryOf.tame {e : Entry} (h : EntryOf patterns filesOnly fs base n e)
    (hp : Sighted fs base e.source n) :
    Tame filesOnly e.name ∧ (filesOnly = false → base.join ⟨e.name⟩ = e.source) := by
  obtain ⟨path, hpass, hname⟩ := h.passes
  obtain ⟨bs, rest, hbelow, rfl⟩ := Below.of_named hp.normalBase hp.normal hpass.named
  have hrest : ∀ n ∈ rest, IsName n := fun n hn => hbelow.isName n (List.mem_append_right _ hn)
  have hne := h.name
  cases filesOnly with
  | false =>
    have hnil : rest ≠ [] := by
      rintro rfl
      exact hne hname
    rw [show nameIn false (nameOf rest) = nameOf rest from rfl, Path.nameOf_of_ne_nil hnil] at hname
    rw [hname, hbelow.base, hbelow.path]
    exact ⟨tame_joinNames hnil hrest, fun _ => Path.join_ofNames hbelow.isName hnil⟩
  | true =>
    rw [hname, show nameIn true (nameOf rest) = Path.lastPart (nameOf rest) from rfl] at hne ⊢
    refine ⟨?_, by simp⟩
    rcases List.eq_nil_or_concat rest with rfl | ⟨front, last, rfl⟩
    · exact absurd rfl hne
    · rw [List.concat_eq_append] at hrest ⊢
      rw [Path.lastPart_nameOf hrest]
      exact tame_of_isName (hrest last (by simp))

/-- **Names cannot escape.** However the inputs are spelt, no node is judged that lies outside of
the base, so no run fails for that and the patterns are never asked about a name that begins with
a slash. Every entry, also of a run that was given up, has a name that leads nowhere but down and
comes from inside of the working directory. Where directories are kept, the name leads from the
base to the source, and no two sources share one. -/
theorem archive_names_inside (hfs : fs.root.isProper = true) (filesOnly : Bool) (inputs : List Path)
    (options : Options) :
    (build fs filesOnly inputs options).result ≠ .error .outsideBase
    ∧ ∀ dir, workingDirectory fs options.workingDir = .ok dir → dir.IsNormal
      ∧ archiveInputs fs dir (inputs.length = 1) inputs = runAll (buildOps fs dir inputs)
      ∧ (∀ op ∈ buildOps fs dir inputs, ∀ base p n, op.Judges base p n →
        base = baseOf fs dir inputs ∧ Path.nameBelow base p ≠ .outside
          ∧ ∀ patterns name, (Ignore.load fs dir options.ignoreFiles).1 = .ok patterns →
            Path.nameBelow base p = .named name → (patterns.relative name).head? ≠ some slash)
      ∧ (∀ op ∈ buildOps fs dir inputs, ∀ op' ∈ buildOps fs dir inputs, ∀ base p n base' q k name,
        op.Judges base p n → op'.Judges base' q k → Path.nameBelow base p = .named name →
          Path.nameBelow base' q = .named name → p = q)
      ∧ ∀ w, lastWriter fs filesOnly inputs options = some w →
        (build fs filesOnly inputs options).received = w.bytes options.compression
        ∧ ∀ m ∈ w.members, Tame filesOnly m.name
          ∧ ∃ source n, Stems fs dir (baseOf fs dir inputs) filesOnly w m source n := by
  refine ⟨fun hout => ?_, fun dir hdir => ?_⟩
  · rcases error_of_build hfs hout with h | h | h
    · cases h
    · simp at h
    · cases h
  · have hnormal := isNormal_of_workingDirectory hdir
    have hcalled : ∀ op ∈ buildOps fs dir inputs, Called fs dir inputs op :=
      fun op hop => called_of_mem hfs hnormal hop
    refine ⟨hnormal, archiveInputs_eq_runAll fs dir _ inputs, ?_, ?_, ?_⟩
    · intro op hop base p n hj
      obtain ⟨rfl, hp⟩ := hj.sighted (hcalled op hop)
      exact ⟨rfl, hp.not_outside, fun patterns name hload hname =>
        hp.head?_relative (Ignore.head?_root_of_load hnormal hload) hname⟩
    · intro op hop op' hop' base p n base' q k name hj hj' hp hq
      obtain ⟨rfl, hsighted⟩ := hj.sighted (hcalled op hop)
      obtain ⟨rfl, hsighted'⟩ := hj'.sighted (hcalled op' hop')
      exact (hsighted.unique hsighted' hp hq).1
    · intro v hv
      refine ⟨(nodup_lastWriter hv).2, fun m hm => ?_⟩
      obtain ⟨dir', w, hprep, hrecorded⟩ := recorded_of_lastWriter hfs hv
      have hw := prepared_of_prepare hprep
      obtain rfl : dir' = dir := Except.ok.inj (hw.directory.symm.trans hdir)
      obtain ⟨r, rfl, hclaim, op, hop, hby⟩ := hrecorded m hm
      rw [hw.filesOnly] at hby
      obtain ⟨hmade, hj⟩ := hby.judged (hcalled op hop)
      obtain ⟨-, hp⟩ := hj.sighted (hcalled op hop)
      obtain ⟨htame, hback⟩ := hmade.entryOf.tame hp
      exact ⟨htame, r.entry.source, r.node, hclaim, hp.normal,
        Path.startsWith_trans hp.below (startsWith_baseOf hnormal), hp.lstat,
        hmade.memberAs hp.lstat, hback⟩

/-- Detours, repeated slashes and slashes at the end, in both kinds of archives. -/
theorem archive_names_inside_spellings :
    let d := Node.directory ⟨0o755, 6, .root⟩ [(Bytes.ofText "f", .file ⟨0o644, 5, .root⟩ [104])]
    let w := Node.directory ⟨0o755, 7, .root⟩ [(Bytes.ofText "d", d)]
    let fs : FileSystem := ⟨.directory ⟨0o755, 0, .root⟩ [(Bytes.ofText "w", w)], [], 0, .root⟩
    let inputs :=
      [Path.ofText "./d//f/", .ofText "../o", .ofText "/w/x/../d/.", .ofText "../../w/d"]
    let options : Options := { Options.plain with workingDir := some (.ofText "/w/./") }
    (∃ v, lastWriter fs false inputs options = some v
      ∧ v.members.map Member.name = [Bytes.ofText "d", Bytes.ofText "d/f"]
      ∧ ∀ m ∈ v.members, Tame false m.name ∧ ∃ source n,
        Stems fs (.ofText "/w") (baseOf fs (.ofText "/w") inputs) false v m source n)
    ∧ ∃ v, lastWriter fs true inputs options = some v
      ∧ v.members.map Member.name = [Bytes.ofText "f"]
      ∧ ∀ m ∈ v.members, Tame true m.name ∧ ∃ source n,
        Stems fs (.ofText "/w") (baseOf fs (.ofText "/w") inputs) true v m source n := by
  intro d w fs inputs options
  have hproper : fs.root.isProper = true := by decide
  have hdir : workingDirectory fs options.workingDir = .ok (.ofText "/w") := by decide +kernel
  have hnames : ∀ {filesOnly v names}, lastWriter fs filesOnly inputs options = some v →
      (entriesOf fs filesOnly inputs options).map Member.name = names →
      v.members.map Member.name = names := by
    rintro filesOnly v _ hv rfl
    rw [entriesOf, hv]
    rfl
  obtain ⟨v, hv⟩ := Option.isSome_iff_exists.mp
    (show (lastWriter fs false inputs options).isSome = true by decide +kernel)
  obtain ⟨v', hv'⟩ := Option.isSome_iff_exists.mp
    (show (lastWriter fs true inputs options).isSome = true by decide +kernel)
  obtain ⟨-, -, -, -, hfull⟩ := (archive_names_inside hproper false inputs options).2 _ hdir
  obtain ⟨-, -, -, -, hflat⟩ := (archive_names_inside hproper true inputs options).2 _ hdir
  exact ⟨⟨v, hv, hnames hv (by decide +kernel), (hfull v hv).2⟩,
    ⟨v', hv', hnames hv' (by decide +kernel), (hflat v' hv').2⟩⟩

end DeployClient.Archive
