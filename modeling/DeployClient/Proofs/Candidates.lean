import DeployClient.Proofs.EntryNames
import DeployClient.Proofs.Lookup
import DeployClient.Proofs.Operations
import Mathlib.Data.List.TakeWhile

/-!
What the inputs of an archive lead to, and the operations that they call for.

On a proper file system that does not change, every operation of a run sees a node where it
stands, below one base for the whole run, or only tells something, or ends the run because a
path cannot be looked at.
-/

namespace DeployClient.Archive

open Tar (Member)

section

variable (fs : FileSystem) (workingDir : Path) (inputs : List Path)

/-- A directory that is the only input is the base itself. -/
def baseOf : Path :=
  match inputs with
  | [input] =>
    match Path.resolveWithin workingDir input with
    | none => workingDir
    | some root =>
      match fs.lstat root with
      | .ok n => if n.isDirectory then root else workingDir
      | .error _ => workingDir
  | _ => workingDir

/-- An input inside the working directory, and the node that stands there. -/
def Given (root : Path) (n : Node) : Prop :=
  ∃ input ∈ inputs, Path.resolveWithin workingDir input = some root ∧ fs.lstat root = .ok n

/-- An input, or what can be reached below it. -/
def Candidate (p : Path) (n : Node) : Prop :=
  ∃ root d, Given fs workingDir inputs root d ∧ Node.Descends root d p n

/-- All operations of a run. -/
def buildOps : List Op := inputs.flatMap (inputOps fs workingDir (inputs.length = 1))

/-- A path below a base, both in normal form, and the node that stands there. -/
structure Sighted (base p : Path) (n : Node) : Prop where
  normalBase : base.IsNormal
  normal : p.IsNormal
  below : p.startsWith base = true
  lstat : fs.lstat p = .ok n

/-- What the operations of a run can be. -/
inductive Called : Op → Prop
  | path {p : Path} {n : Node} (sighted : Sighted fs (baseOf fs workingDir inputs) p n)
      (candidate : Candidate fs workingDir inputs p n) :
      Called (.path fs p (baseOf fs workingDir inputs) n)
  | file {p : Path} {n : Node} (sighted : Sighted fs (baseOf fs workingDir inputs) p n)
      (given : Given fs workingDir inputs p n) (hn : n.isDirectory = false) :
      Called (.file fs p (baseOf fs workingDir inputs) n)
  | report (d : Diagnostic) : Called (.report d)
  | event (e : Event) : Called (.event e)
  | fail {e : Error} (he : e ≠ .nothingArchived) : Called (.fail e)

end

variable {fs : FileSystem} {workingDir base p root : Path} {inputs : List Path} {n d : Node}

/-! ### The base -/

lemma baseOf_of_many (h : inputs.length ≠ 1) : baseOf fs workingDir inputs = workingDir := by
  rcases inputs with _ | ⟨x, _ | ⟨y, l⟩⟩
  · rfl
  · simp at h
  · rfl

/-- The base of a walk from a directory that was given. -/
lemma baseOf_of_directory {input : Path} (hmem : input ∈ inputs)
    (hroot : Path.resolveWithin workingDir input = some root) (hl : fs.lstat root = .ok d)
    (hd : d.isDirectory = true) :
    baseOf fs workingDir inputs = if inputs.length = 1 then root else workingDir := by
  split
  · next hone =>
    obtain ⟨x, rfl⟩ := List.length_eq_one_iff.mp hone
    obtain rfl := List.mem_singleton.mp hmem
    simp only [baseOf, hroot, hl, hd, if_true]
  · next hmany => exact baseOf_of_many hmany

/-- The base of a file that was given. -/
lemma baseOf_of_file {input : Path} (hmem : input ∈ inputs)
    (hroot : Path.resolveWithin workingDir input = some root) (hl : fs.lstat root = .ok n)
    (hn : n.isDirectory = false) : baseOf fs workingDir inputs = workingDir := by
  by_cases hone : inputs.length = 1
  · obtain ⟨x, rfl⟩ := List.length_eq_one_iff.mp hone
    obtain rfl := List.mem_singleton.mp hmem
    simp [baseOf, hroot, hl, hn]
  · exact baseOf_of_many hone

lemma isNormal_baseOf (hw : workingDir.IsNormal) : (baseOf fs workingDir inputs).IsNormal := by
  unfold baseOf
  split
  · split
    · exact hw
    · next hroot =>
      split
      · split
        · exact (Path.resolveWithin_spec hw hroot).1
        · exact hw
      · exact hw
  · exact hw

/-! ### Candidates -/

/-- Going down from a path in normal form, and what is found on the way. -/
lemma descends_spec (hfs : fs.root.isProper = true) (hroot : root.IsNormal)
    (hl : fs.lstat root = .ok d) (h : Node.Descends root d p n) :
    p.IsNormal ∧ p.startsWith root = true ∧ n.isProper = true
      ∧ ∀ k, fs.lstat p = .ok k → k = n := by
  induction h with
  | self =>
    exact ⟨hroot, Path.startsWith_self _, FileSystem.isProper_of_lstat hfs hl,
      fun k hk => Except.ok.inj (hk.symm.trans hl)⟩
  | child _ hmem ih =>
    obtain ⟨hp, hstart, hproper, hfound⟩ := ih
    obtain ⟨hname, hk⟩ := Node.of_mem_entries hproper hmem
    refine ⟨hp.child hname, Path.startsWith_child hp hname hstart, hk, fun k hk => ?_⟩
    obtain ⟨q, hq⟩ := FileSystem.lstat_of_child hp hname hk
    obtain rfl := hfound q hq
    exact FileSystem.lstat_child hfs hp hq hmem hk

lemma visits_of_directory (hl : fs.lstat root = .ok d) (hd : d.isDirectory = true) :
    fs.visits root = .ok (d.visits root) := by
  cases d with
  | directory stamp es => simp [FileSystem.visits, hl]
  | _ => simp [Node.isDirectory] at hd

/-- What a walk from a directory that was given comes to. -/
lemma called_visitOp (hfs : fs.root.isProper = true) (hw : workingDir.IsNormal)
    (hgiven : Given fs workingDir inputs root d) (hroot : root.IsNormal)
    (hbelow : root.startsWith (baseOf fs workingDir inputs) = true)
    (hdesc : Node.Descends root d p n) :
    Called fs workingDir inputs (visitOp fs (baseOf fs workingDir inputs) p) := by
  obtain ⟨input, hinput, hresolve, hl⟩ := hgiven
  obtain ⟨hp, hstart, -, hfound⟩ := descends_spec hfs hroot hl hdesc
  unfold visitOp
  split
  · exact .fail (by simp)
  · next k hk =>
    obtain rfl := hfound k hk
    exact .path ⟨isNormal_baseOf hw, hp, Path.startsWith_trans hstart hbelow, hk⟩
      ⟨root, d, ⟨input, hinput, hresolve, hl⟩, hdesc⟩

/-- **Every operation of a run sees a candidate**, tells something or fails. -/
lemma called_of_mem (hfs : fs.root.isProper = true) (hw : workingDir.IsNormal) {op : Op}
    (hop : op ∈ buildOps fs workingDir inputs) : Called fs workingDir inputs op := by
  obtain ⟨input, hinput, hop⟩ := List.mem_flatMap.mp hop
  unfold inputOps at hop
  split at hop
  · rw [List.mem_singleton.mp hop]
    exact .report _
  · next root hroot =>
    obtain ⟨hnormal, hstart⟩ := Path.resolveWithin_spec hw hroot
    split at hop
    · rw [List.mem_singleton.mp hop]
      exact .fail (by simp)
    · next d hl =>
      have hgiven : Given fs workingDir inputs root d := ⟨input, hinput, hroot, hl⟩
      split at hop
      · next hd =>
        have hbase := baseOf_of_directory hinput hroot hl hd
        simp only [decide_eq_true_eq] at hop
        rw [← hbase] at hop
        have hbelow : root.startsWith (baseOf fs workingDir inputs) = true := by
          rw [hbase]
          split
          · exact Path.startsWith_self root
          · exact hstart
        rcases List.mem_cons.mp hop with rfl | hop
        · exact .event _
        · rw [walkOps, visits_of_directory hl hd] at hop
          obtain ⟨v, hv, hop⟩ := List.mem_flatMap.mp hop
          rcases mem_visitOps.mp hop with rfl | ⟨rfl, -⟩
          · exact called_visitOp hfs hw hgiven hnormal hbelow (Node.mem_visits_iff_descends.mp hv)
          · exact .fail (by simp)
      · next hd =>
        have hfile : d.isDirectory = false := by simpa using hd
        have hbase := baseOf_of_file hinput hroot hl hfile
        have hbelow : root.startsWith (baseOf fs workingDir inputs) = true := by
          rw [hbase]
          exact hstart
        have hcalled := Called.file ⟨isNormal_baseOf hw, hnormal, hbelow, hl⟩ hgiven hfile
        rw [hbase] at hcalled
        rw [List.mem_singleton.mp hop]
        exact hcalled

/-- **Every candidate has its operation**, unless the run fails. -/
lemma mem_of_candidate (hfs : fs.root.isProper = true) (hw : workingDir.IsNormal)
    (hfail : ∀ e, .fail e ∉ buildOps fs workingDir inputs)
    (h : Candidate fs workingDir inputs p n) :
    .path fs p (baseOf fs workingDir inputs) n ∈ buildOps fs workingDir inputs
      ∨ .file fs p (baseOf fs workingDir inputs) n ∈ buildOps fs workingDir inputs := by
  obtain ⟨root, d, ⟨input, hinput, hroot, hl⟩, hdesc⟩ := h
  obtain ⟨hnormal, hstart⟩ := Path.resolveWithin_spec hw hroot
  have hsub : ∀ op ∈ inputOps fs workingDir (inputs.length = 1) input,
      op ∈ buildOps fs workingDir inputs := fun op h => List.mem_flatMap.mpr ⟨input, hinput, h⟩
  by_cases hd : d.isDirectory = true
  · left
    have hbase := baseOf_of_directory hinput hroot hl hd
    have hv : visitOp fs (baseOf fs workingDir inputs) p ∈ buildOps fs workingDir inputs := by
      refine hsub _ ?_
      simp only [inputOps, hroot, hl, hd, if_true, decide_eq_true_eq, ← hbase]
      rw [walkOps, visits_of_directory hl hd]
      exact List.mem_cons_of_mem _ (List.mem_flatMap.mpr
        ⟨_, Node.mem_visits_iff_descends.mpr hdesc, mem_visitOps.mpr (.inl rfl)⟩)
    unfold visitOp at hv
    split at hv
    · exact absurd hv (hfail _)
    · next k hk =>
      rwa [← (descends_spec hfs hnormal hl hdesc).2.2.2 k hk]
  · right
    have hfile : d.isDirectory = false := by simpa using hd
    obtain ⟨rfl, rfl⟩ := hdesc.eq_of_not_directory hfile
    refine hsub _ ?_
    simp [inputOps, hroot, hl, hfile, baseOf_of_file hinput hroot hl hfile]

/-- A directory that may not be listed has its operation, too. -/
lemma Candidate.mem_fail (h : Candidate fs workingDir inputs p n) (hn : fs.lists n = false) :
    .fail (.walk ⟨p, .permissionDenied⟩) ∈ buildOps fs workingDir inputs := by
  obtain ⟨root, d, ⟨input, hinput, hroot, hl⟩, hdesc⟩ := h
  have hd : d.isDirectory = true := by
    by_contra hd
    have hfile : d.isDirectory = false := by simpa using hd
    obtain ⟨rfl, rfl⟩ := hdesc.eq_of_not_directory hfile
    simp [FileSystem.lists, hfile] at hn
  refine List.mem_flatMap.mpr ⟨input, hinput, ?_⟩
  simp only [inputOps, hroot, hl, hd, if_true]
  rw [walkOps, visits_of_directory hl hd]
  exact List.mem_cons_of_mem _ (List.mem_flatMap.mpr
    ⟨(p, n), Node.mem_visits_iff_descends.mpr hdesc, mem_visitOps.mpr (.inr ⟨rfl, hn⟩)⟩)

/-! ### Nodes that are seen where they stand -/

lemma mem_parents_of_mem_parentsBelow {q : Path} (hq : q ∈ parentsBelow p base) :
    q ∈ p.parents ∧ q.startsWith base = true := by
  have hmem := List.mem_reverse.mp hq
  have hwhile := List.mem_takeWhile_imp hmem
  simp only [Bool.and_eq_true] at hwhile
  exact ⟨(List.takeWhile_sublist _).subset hmem, hwhile.2⟩

lemma not_badParent (h : ∀ q ∈ parentsBelow p base, ∃ k, fs.lstat q = .ok k) :
    ¬ BadParent fs base (parentsBelow p base) := by
  rintro ⟨q, hq, hlost | hout⟩
  · obtain ⟨k, hk⟩ := h q hq
    exact hlost k hk
  · exact Path.nameBelow_ne_outside (mem_parents_of_mem_parentsBelow hq).2 hout

/-- The directories between a path and its base are seen from that base, too. -/
lemma Sighted.of_mem_parentsBelow {q : Path} {k : Node} (hp : Sighted fs base p n)
    (hq : q ∈ parentsBelow p base) (hl : fs.lstat q = .ok k) : Sighted fs base q k := by
  obtain ⟨hparent, hstart⟩ := mem_parents_of_mem_parentsBelow hq
  exact ⟨hp.normalBase, hp.normal.of_mem_parents hparent, hstart, hl⟩

/-! ### Their entries -/

/-- The member for a node: everything but the name comes from the node. -/
def memberAs (name : Bytes) (n : Node) : Option Member :=
  match n with
  | .file stamp data =>
    some ⟨name, .file, n.mode, stamp.owner, Tar.unsignedTime stamp.mtime, data.length, [], data⟩
  | .directory stamp _ =>
    some ⟨name, .directory, n.mode, stamp.owner, Tar.unsignedTime stamp.mtime, 0, [], []⟩
  | .symlink stamp target =>
    some ⟨name, .symlink, n.mode, stamp.owner, Tar.unsignedTime stamp.mtime, 0, target, []⟩
  | .special .. => none

lemma name_of_memberAs {name : Bytes} {m : Member} (h : memberAs name n = some m) :
    m.name = name := by
  cases n with
  | special stamp kind => simp [memberAs] at h
  | _ =>
    obtain rfl := Option.some.inj h
    rfl

lemma kind_of_memberAs {name : Bytes} {m : Member} (h : memberAs name n = some m) :
    Kind.ofNode? n = some m.kind := by
  cases n with
  | special stamp kind => simp [memberAs] at h
  | _ =>
    obtain rfl := Option.some.inj h
    rfl

/-- **A record holds its node as it stands**: the whole data of a file, the target of a link. -/
lemma Record.Made.memberAs {patterns : Ignore.Patterns} {filesOnly : Bool} {r : Record}
    (h : r.Made patterns filesOnly fs base) (hl : fs.lstat r.entry.source = .ok r.node) :
    memberAs r.entry.name r.node = some r.member := by
  obtain ⟨path, hp, -⟩ := h.entryOf.passes
  have hkind := hp.ofNode
  have hsize := h.entryOf.size
  have htarget := h.entryOf.target
  have hdata := h.delivers
  obtain ⟨⟨name, kind, target, size, source⟩, node, data⟩ := r
  simp only at hl hkind hsize htarget hdata ⊢
  unfold Delivers at hdata
  cases node with
  | file stamp content =>
    obtain rfl := Option.some.inj hkind
    obtain ⟨read, hread, -, rfl⟩ := hdata
    obtain rfl := FileSystem.eq_of_read hl hread
    obtain rfl := Except.ok.inj htarget
    simp [Archive.memberAs, Record.member, memberOf, hsize, Node.size, Node.stamp]
  | directory stamp es =>
    obtain rfl := Option.some.inj hkind
    obtain rfl := Except.ok.inj htarget
    obtain rfl : data = [] := hdata
    simp [Archive.memberAs, Record.member, memberOf, hsize, Node.size, Node.stamp]
  | symlink stamp link =>
    obtain rfl := Option.some.inj hkind
    simp only [targetOf, FileSystem.readLink, hl] at htarget
    obtain rfl := Except.ok.inj htarget
    obtain rfl : data = [] := hdata
    simp [Archive.memberAs, Record.member, memberOf, hsize, Node.size, Node.stamp]
  | special stamp kind' => simp [Kind.ofNode?] at hkind

end DeployClient.Archive
