import DeployClient.Proofs.Building
import DeployClient.Proofs.Candidates

/-!
What the archive of a run holds when directories are kept.

Below one base a name belongs to one path, so entries can only contend for a name if they are
of the same node, and what was reached and not filtered is in the archive, once.
-/

namespace DeployClient.Archive

open Tar (Member)

/-- A node that the filters let pass, and its member: its place below the base is text, it is
not the base itself, no pattern leaves it out, and it is of a kind that an archive can hold. -/
structure Wanted (patterns : Ignore.Patterns) (base p : Path) (n : Node) (m : Member) : Prop where
  named : Path.nameBelow base p = .named m.name
  notBase : m.name ≠ baseName
  kept : patterns.isIgnored m.name n.isDirectory = false
  member : memberAs m.name n = some m

/-- A directory above a file that was given and is in the archive. -/
def Above (fs : FileSystem) (workingDir : Path) (inputs : List Path) (patterns : Ignore.Patterns)
    (p : Path) (n : Node) : Prop :=
  n.isDirectory = true ∧ fs.lstat p = .ok n ∧ ∃ file k m, Given fs workingDir inputs file k
    ∧ k.isDirectory = false ∧ p ∈ parentsBelow file (baseOf fs workingDir inputs)
    ∧ Wanted patterns (baseOf fs workingDir inputs) file k m

variable {fs : FileSystem} {base p q : Path} {n k : Node} {m : Member}
  {patterns : Ignore.Patterns} {r : Record}

/-! ### Nodes that pass -/

lemma decide_eq_isDirectory {kind : Kind} (h : Kind.ofNode? n = some kind) :
    decide (kind = .directory) = n.isDirectory := by
  cases n with
  | special stamp kind => simp [Kind.ofNode?] at h
  | _ =>
    obtain rfl := Option.some.inj h
    rfl

lemma exists_memberAs (name : Bytes) {kind : Kind} (h : Kind.ofNode? n = some kind) :
    ∃ m, memberAs name n = some m := by
  cases n with
  | special stamp kind => simp [Kind.ofNode?] at h
  | _ => exact ⟨_, rfl⟩

lemma Wanted.passes (h : Wanted patterns base p n m) :
    Passes patterns false base p n m.name m.kind where
  named := h.named
  ofNode := kind_of_memberAs h.member
  listed := by simp
  kept := fun _ => by rw [decide_eq_isDirectory (kind_of_memberAs h.member), h.kept]

lemma EntryOf.exists_wanted {e : Entry} (h : EntryOf patterns false fs base n e) :
    ∃ m, Wanted patterns base e.source n m := by
  obtain ⟨path, hp, hname⟩ := h.passes
  obtain ⟨m, hm⟩ := exists_memberAs path hp.ofNode
  obtain rfl := name_of_memberAs hm
  have hne : m.name ≠ baseName := by
    have := h.name
    rwa [hname] at this
  refine ⟨m, hp.named, hne, ?_, hm⟩
  rw [← decide_eq_isDirectory hp.ofNode]
  exact hp.kept hne

/-- The record of a node that is seen where it stands is what was wanted. -/
lemma Record.Made.wanted (h : r.Made patterns false fs base)
    (hl : fs.lstat r.entry.source = .ok r.node) :
    Wanted patterns base r.entry.source r.node r.member := by
  obtain ⟨m, hm⟩ := h.entryOf.exists_wanted
  obtain ⟨path, hp, hname⟩ := h.entryOf.passes
  have hpath : path = m.name := Naming.named.inj (hp.named.symm.trans hm.named)
  have hmember := h.memberAs hl
  rw [hname, show nameIn false path = m.name from hpath, hm.member] at hmember
  rwa [← Option.some.inj hmember]

/-- **Distinct sources never contend for a name.** -/
lemma Sighted.unique (hp : Sighted fs base p n) (hq : Sighted fs base q k) {name : Bytes}
    (h : Path.nameBelow base p = .named name) (h' : Path.nameBelow base q = .named name) :
    p = q ∧ n = k := by
  obtain rfl := Path.eq_of_nameBelow_eq hp.normalBase hp.normal hq.normal h h'
  exact ⟨rfl, Except.ok.inj (hp.lstat.symm.trans hq.lstat)⟩

/-- **What is wanted and has its name among the claims is in the archive**: the name belongs to an
entry, and that entry is of the same node. -/
lemma mem_of_claimed {w : Writer} (hstep : InStep w) (hfull : w.filesOnly = false)
    (horigin : ∀ m ∈ w.members, ∃ q k, Sighted fs base q k ∧ Wanted w.patterns base q k m)
    (hp : Sighted fs base p n) (hc : Claimed w base p n) (hm : Wanted w.patterns base p n m) :
    m ∈ w.members := by
  have hname : m.name ∈ w.claims.names := by
    have := hc m.name m.kind
    rw [hfull] at this
    exact this hm.passes
  obtain ⟨m', hm', hsame⟩ := List.mem_map.mp ((hstep.names _).mpr ⟨hm.notBase, hname⟩)
  obtain ⟨q, k, hseen, hwanted⟩ := horigin m' hm'
  obtain ⟨-, hnode⟩ := hseen.unique hp hwanted.named (hsame ▸ hm.named)
  have hmember := hwanted.member
  rw [hsame, hnode, hm.member] at hmember
  rwa [Option.some.inj hmember]

/-! ### Runs -/

section

variable {dir : Path} {inputs : List Path} {w w' : Writer} {count : Nat} {rs : List Record}

/-- Every record is of a candidate, or of a directory above a file that was given. -/
lemma Accounts.origin_wanted {ops : List Op} (hops : ∀ op ∈ ops, Called fs dir inputs op)
    (hw : w.filesOnly = false) (h : Accounts ops w w' count rs) (hr : r ∈ rs) :
    Sighted fs (baseOf fs dir inputs) r.entry.source r.node
      ∧ Wanted w.patterns (baseOf fs dir inputs) r.entry.source r.node r.member
      ∧ (Candidate fs dir inputs r.entry.source r.node
        ∨ Above fs dir inputs w.patterns r.entry.source r.node) := by
  obtain ⟨op, hop, hby⟩ := h.origin r hr
  rw [hw] at hby
  cases hops op hop with
  | path sighted candidate =>
    obtain ⟨hmade, rfl, rfl⟩ := hby
    exact ⟨sighted, hmade.wanted sighted.lstat, .inl candidate⟩
  | file sighted given hn =>
    obtain ⟨hmade, ⟨rfl, rfl⟩ | ⟨himplied, e, rfl, he⟩⟩ := hby
    · exact ⟨sighted, hmade.wanted sighted.lstat, .inl ⟨_, _, given, .self⟩⟩
    · obtain ⟨m, hm⟩ := he.exists_wanted
      exact ⟨sighted.of_mem_parentsBelow himplied.parent himplied.lstat,
        hmade.wanted himplied.lstat,
        .inr ⟨himplied.isDirectory, himplied.lstat, _, _, m, given, hn, himplied.parent, hm⟩⟩
  | _ => exact hby.elim

/-- Every entry is that of a node that is seen. -/
lemma Accounts.exists_wanted {ops : List Op} (hops : ∀ op ∈ ops, Called fs dir inputs op)
    (hw : w.filesOnly = false) (h : Accounts ops w w' count rs) (hm : m ∈ w'.members) :
    ∃ q k, Sighted fs (baseOf fs dir inputs) q k
      ∧ Wanted w'.patterns (baseOf fs dir inputs) q k m := by
  rw [h.entries] at hm
  obtain ⟨r, hr, rfl⟩ := List.mem_map.mp hm
  obtain ⟨hseen, hwanted, -⟩ := h.origin_wanted hops hw hr
  exact ⟨_, _, hseen, h.patterns ▸ hwanted⟩

/-- After a run that has not failed, every candidate has been seen and judged. -/
lemma Accounts.of_candidate (hfs : fs.root.isProper = true) (hdir : dir.IsNormal)
    (h : Accounts (buildOps fs dir inputs) w w' count rs) (hc : Candidate fs dir inputs p n) :
    Sighted fs (baseOf fs dir inputs) p n ∧ Claimed w' (baseOf fs dir inputs) p n := by
  have hfail : ∀ e, .fail e ∉ buildOps fs dir inputs := fun e he => h.settled _ he
  rcases mem_of_candidate hfs hdir hfail hc with hop | hop
  · cases called_of_mem hfs hdir hop with
    | path sighted candidate => exact ⟨sighted, h.settled _ hop⟩
  · cases called_of_mem hfs hdir hop with
    | file sighted given hn => exact ⟨sighted, h.settled _ hop⟩

/-- After a run that has not failed, every input inside the working directory has been found. -/
lemma Accounts.exists_lstat {input root : Path}
    (h : Accounts (buildOps fs dir inputs) w w' count rs) (hinput : input ∈ inputs)
    (hroot : Path.resolveWithin dir input = some root) : ∃ d, fs.lstat root = .ok d := by
  rcases hl : fs.lstat root with e | d
  · have hfail : .fail (.io (.os e)) ∈ buildOps fs dir inputs :=
      List.mem_flatMap.mpr ⟨input, hinput, by simp [inputOps, hroot, hl]⟩
    exact (h.settled _ hfail).elim
  · exact ⟨d, rfl⟩

/-- Every candidate that passes has its entry. -/
lemma Accounts.mem_of_wanted (hfs : fs.root.isProper = true) (hdir : dir.IsNormal)
    (hw : w.filesOnly = false) (h : Accounts (buildOps fs dir inputs) w w' count rs)
    (hc : Candidate fs dir inputs p n)
    (hm : Wanted w.patterns (baseOf fs dir inputs) p n m) : m ∈ w'.members := by
  obtain ⟨hsighted, hclaimed⟩ := h.of_candidate hfs hdir hc
  exact mem_of_claimed h.inStep (h.filesOnly.trans hw)
    (fun _ => h.exists_wanted (fun _ => called_of_mem hfs hdir) hw) hsighted hclaimed
    (h.patterns ▸ hm)

end

/-- What the entries of an archive have to be, if directories are kept. -/
structure Exact (fs : FileSystem) (dir : Path) (inputs : List Path) (patterns : Ignore.Patterns)
    (entries : List Member) : Prop where
  /-- No two entries share a name. -/
  unique : (entries.map Member.name).Nodup
  /-- The files and the links are those of the candidates that pass, as they stand. -/
  files : ∀ m, m.kind ≠ .directory → (m ∈ entries ↔
    ∃ p n, Candidate fs dir inputs p n ∧ Wanted patterns (baseOf fs dir inputs) p n m)
  /-- Candidates that are different go by different names. -/
  distinct : ∀ p q n k m m', Candidate fs dir inputs p n → Candidate fs dir inputs q k →
    Wanted patterns (baseOf fs dir inputs) p n m → Wanted patterns (baseOf fs dir inputs) q k m' →
    m.name = m'.name → p = q ∧ n = k
  /-- The directories among the candidates that pass have entries, too. -/
  directories : ∀ p n m, Candidate fs dir inputs p n →
    Wanted patterns (baseOf fs dir inputs) p n m → m ∈ entries
  /-- Any other directory is above a file that was given and is in the archive. -/
  others : ∀ m ∈ entries, m.kind = .directory → ∃ p n,
    Wanted patterns (baseOf fs dir inputs) p n m
      ∧ (Candidate fs dir inputs p n ∨ Above fs dir inputs patterns p n)

/-- **The archive holds exactly what was reached and not filtered**, if it was not given up: of
every candidate that passes the filters one entry, with all the bytes of a file. -/
theorem archive_exact {paths : List Path} {options : Options} (hfs : fs.root.isProper = true)
    (hdone : (build fs false paths options).result = .ok ()
      ∨ (build fs false paths options).result = .error .nothingArchived) :
    ∃ dir patterns w, workingDirectory fs options.workingDir = .ok dir
      ∧ (Ignore.load fs dir options.ignoreFiles).1 = .ok patterns
      ∧ lastWriter fs false paths options = some w
      ∧ (build fs false paths options).received
        = some (Gzip.encode options.compression (Tar.encode w.members))
      ∧ Exact fs dir paths patterns w.members := by
  rcases completed_or_error fs false paths options with ⟨dir, w, n, w', hall⟩ | ⟨e, hne, he⟩
  · have hprep := prepared_of_prepare hall.prepare
    have hrun := hall.run
    rw [archiveInputs_eq_runAll] at hrun
    obtain ⟨rs, hrs⟩ := exists_accounts hprep.claims hprep.members hrun
    have hreceived := (nodup_lastWriter hall.lastWriter).2
    have hcandidate : ∀ p n m, Candidate fs dir paths p n →
        Wanted w.patterns (baseOf fs dir paths) p n m → m ∈ w'.members :=
      fun p n m hc hm => hrs.mem_of_wanted hfs hprep.normal hprep.filesOnly hc hm
    refine ⟨dir, w.patterns, _, hprep.directory, hprep.patterns, hall.lastWriter, ?_,
      hrs.nodup_names, ?_, ?_, hcandidate, ?_⟩
    · rw [hreceived]
      simp [Writer.bytes, hall.sink]
    · intro m hkind
      have hback : (∃ p n, Candidate fs dir paths p n
          ∧ Wanted w.patterns (baseOf fs dir paths) p n m) → m ∈ w'.members := by
        rintro ⟨p, n, hc, hm⟩
        exact hcandidate p n m hc hm
      refine ⟨fun hm => ?_, hback⟩
      rw [Writer.members_note, hrs.entries] at hm
      obtain ⟨r, hr, rfl⟩ := List.mem_map.mp hm
      obtain ⟨-, hwanted, hc | habove⟩ :=
        hrs.origin_wanted (fun _ => called_of_mem hfs hprep.normal) hprep.filesOnly hr
      · exact ⟨_, _, hc, hwanted⟩
      · have hdir := habove.1
        rw [← decide_eq_isDirectory (kind_of_memberAs hwanted.member)] at hdir
        exact absurd (of_decide_eq_true hdir) hkind
    · intro p q n k m m' hp hq hm hm' hname
      exact (hrs.of_candidate hfs hprep.normal hp).1.unique
        (hrs.of_candidate hfs hprep.normal hq).1 hm.named (hname ▸ hm'.named)
    · intro m hm hkind
      rw [Writer.members_note, hrs.entries] at hm
      obtain ⟨r, hr, rfl⟩ := List.mem_map.mp hm
      obtain ⟨-, hwanted, horigin⟩ := hrs.origin_wanted (fun _ => called_of_mem hfs hprep.normal)
        hprep.filesOnly hr
      exact ⟨_, _, hwanted, horigin⟩
  · rcases hdone with h | h
    · simp [he] at h
    · exact absurd (Except.error.inj (he.symm.trans h)) hne

/-- A file, the directory that holds it, and a link to it. -/
theorem archive_exact_overlapping :
    let d := Node.directory ⟨0o755, 6, .root⟩ [([102], .file ⟨0o644, 5, .root⟩ [104])]
    let l := Node.symlink ⟨0o777, 7, .root⟩ [100, 47, 102]
    let fs : FileSystem := ⟨.directory ⟨0o755, 0, .root⟩ [([100], d), ([108], l)], [], 0, .root⟩
    let paths := [Path.ofText "d/f", .ofText "d", .ofText "l"]
    ∃ dir patterns w, workingDirectory fs none = .ok dir
      ∧ (Ignore.load fs dir []).1 = .ok patterns
      ∧ lastWriter fs false paths .plain = some w
      ∧ (build fs false paths .plain).received
        = some (Gzip.encode Gzip.best (Tar.encode w.members))
      ∧ Exact fs dir paths patterns w.members := by
  intro d l fs paths
  have hproper : fs.root.isProper = true := by decide
  have hdone : (build fs false paths .plain).result = .ok () := ok_of_toBool (by decide +kernel)
  exact archive_exact hproper (.inl hdone)

end DeployClient.Archive
