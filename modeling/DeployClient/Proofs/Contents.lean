import DeployClient.Proofs.Mirrors
import DeployClient.Proofs.Rulings
import Mathlib.Data.List.Induction

/-!
What a list of operations brings into an archive that keeps directories, and what one more
ignore line changes in it.

The entries are told by the operations and the patterns alone. A node that is added and passes
the filters has its entry. The directories above a file come with it if it was given on its own
before anything else has added it, since otherwise the file is not accepted a second time. So
patterns that let more pass can only make an archive larger.
-/

namespace DeployClient.Archive

open Tar (Member)

variable {fs : FileSystem} {base p : Path} {n : Node} {w w' : Writer} {m : Member} {op : Op}
  {ops : List Op} {patterns patterns' : Ignore.Patterns} {k : Nat}

/-! ### What operations bring -/

/-- The operation adds this node. -/
def Op.Adds (fs : FileSystem) (base p : Path) (n : Node) (op : Op) : Prop :=
  op = .path fs p base n ∨ op = .file fs p base n

/-- The operations bring this entry: of a node that one of them adds, or of a directory above a
file that is given on its own before anything else has added it. -/
inductive Brings (patterns : Ignore.Patterns) (fs : FileSystem) (base : Path) (ops : List Op)
    (m : Member) : Prop
  | added {op : Op} {p : Path} {n : Node} (hop : op ∈ ops) (hadds : op.Adds fs base p n)
      (wanted : Wanted patterns base p n m)
  | above {before after : List Op} {file dir : Path} {n d : Node} {m' : Member}
      (hops : ops = before ++ .file fs file base n :: after)
      (first : ∀ op ∈ before, ∀ k, ¬ op.Adds fs base file k)
      (file_wanted : Wanted patterns base file n m') (parent : dir ∈ parentsBelow file base)
      (lstat : fs.lstat dir = .ok d) (isDirectory : d.isDirectory = true)
      (wanted : Wanted patterns base dir d m)

lemma Brings.append (h : Brings patterns fs base ops m) (rest : List Op) :
    Brings patterns fs base (ops ++ rest) m := by
  cases h with
  | added hop hadds wanted => exact .added (List.mem_append_left _ hop) hadds wanted
  | above hops first file_wanted parent lstat isDirectory wanted =>
    exact .above (by rw [hops, List.append_assoc, List.cons_append]) first file_wanted parent lstat
      isDirectory wanted

/-- Patterns that let more pass bring more. -/
lemma Brings.mono (hkept : ∀ name isDirectory, patterns.isIgnored name isDirectory = false →
      patterns'.isIgnored name isDirectory = false) (h : Brings patterns fs base ops m) :
    Brings patterns' fs base ops m := by
  have hwanted : ∀ {p n m}, Wanted patterns base p n m → Wanted patterns' base p n m :=
    fun hm => ⟨hm.named, hm.notBase, hkept _ _ hm.kept, hm.member⟩
  cases h with
  | added hop hadds wanted => exact .added hop hadds (hwanted wanted)
  | above hops first file_wanted parent lstat isDirectory wanted =>
    exact .above hops first (hwanted file_wanted) parent lstat isDirectory (hwanted wanted)

/-! ### Parents -/

/-- After the parents have been added, each that is a directory has been judged. -/
lemma addParents_claims (fs : FileSystem) (base : Path) (parents : List Path) (w : Writer) :
    Ends (addParents fs base parents) w (fun _ w' => ∀ q ∈ parents, ∀ d, fs.lstat q = .ok d →
      d.isDirectory = true → Claimed w' base q d) fun _ _ => True := by
  refine (addParents_rule
    (I := fun ps w' => ∀ q ∈ parents, q ∈ ps ∨ ∀ d, fs.lstat q = .ok d → d.isDirectory = true →
      Claimed w' base q d) (fun _ _ _ _ _ _ => trivial) ?_ ?_ fun q hq => .inl hq).mono
    (fun _ _ h q hq => (h q hq).resolve_left (by simp)) fun _ _ h => h
  · intro p ps w' node hps hnode hdir
    refine (addPath_ends fs p base node true w').mono ?_ fun _ _ _ => trivial
    rintro _ w'' ⟨own, h⟩ q hq
    obtain ⟨cs, hg, -⟩ := h.logs.grows
    rcases hps q hq with hmem | hdone
    · refine (List.mem_cons.mp hmem).symm.imp_right ?_
      rintro rfl d hd -
      obtain rfl : node = d := Except.ok.inj (hnode.symm.trans hd)
      exact h.claimed
    · exact .inr fun d hd hdirectory => (hdone d hd hdirectory).of_grows hg
  · intro p ps w' node hps hnode hdir q hq
    rcases hps q hq with hmem | hdone
    · refine (List.mem_cons.mp hmem).symm.imp_right ?_
      rintro rfl d hd hdirectory
      obtain rfl : node = d := Except.ok.inj (hnode.symm.trans hd)
      simp [hdir] at hdirectory
    · exact .inr hdone

/-- A file that is accepted brings the directories above it, unless they do not pass. -/
lemma addFile_claims {source : Path} {path : Bytes} {kind : Kind} (hfull : w.filesOnly = false)
    (hp : Passes w.patterns w.filesOnly base source n path kind) (hne : path ≠ baseName)
    (hfree : path ∉ w.claims.names) :
    Ends (addFile fs source base n) w (fun _ w' => ∀ q ∈ parentsBelow source base, ∀ d,
      fs.lstat q = .ok d → d.isDirectory = true → Claimed w' base q d) fun _ _ => True := by
  have hname : nameIn w.filesOnly path = path := nameIn_of_full hfull path
  unfold addFile
  refine Ends.bind ((accept_ends fs source base n false w).mono (fun _ _ h => h)
    fun _ _ _ => trivial) ?_
  intro r w' hr
  cases hr with
  | skipped grows held => exact absurd (hname ▸ held path kind hp) hfree
  | base who grows named => exact absurd (hname ▸ named path kind hp) hne
  | entry e grows hsource entryOf =>
    refine Ends.bind (Q := fun a w'' => a = w' ∧ w'' = w') (Ends.get ⟨rfl, rfl⟩) ?_
    rintro _ _ ⟨rfl, rfl⟩
    next w' =>
    rw [if_neg (by simp [grows.filesOnly, hfull])]
    refine Ends.bind (addParents_claims fs base _ w') ?_
    intro added w'' hparents
    refine Ends.bind ((write_ends fs e n w'').mono (fun _ _ h => h) fun _ _ _ => trivial) ?_
    rintro _ w''' ⟨-, data, -, hw⟩
    exact Ends.pure fun q hq d hd hdir => (hparents q hq d hd hdir).of_grows hw

/-! ### Runs -/

section

variable {dir : Path} {inputs : List Path}

/-- What adds a node is called for one that is seen. -/
lemma Op.Adds.sighted (hadds : op.Adds fs (baseOf fs dir inputs) p n)
    (hop : Called fs dir inputs op) : Sighted fs (baseOf fs dir inputs) p n := by
  rcases hadds with rfl | rfl
  · cases hop with
    | path sighted _ => exact sighted
  · cases hop with
    | file sighted _ _ => exact sighted

lemma Op.Adds.claimed (hadds : op.Adds fs base p n) (h : op.Settled w) : Claimed w base p n := by
  rcases hadds with rfl | rfl
  · exact h
  · exact h

/-- What is brought is a node that is seen: one that an operation adds, or a directory. -/
lemma Brings.sighted (hops : ∀ op ∈ ops, Called fs dir inputs op)
    (h : Brings patterns fs (baseOf fs dir inputs) ops m) :
    ∃ q k, Sighted fs (baseOf fs dir inputs) q k ∧ Wanted patterns (baseOf fs dir inputs) q k m
      ∧ ((∃ op ∈ ops, op.Adds fs (baseOf fs dir inputs) q k) ∨ k.isDirectory = true) := by
  cases h with
  | added hop hadds wanted => exact ⟨_, _, hadds.sighted (hops _ hop), wanted, .inl ⟨_, hop, hadds⟩⟩
  | @above before after file above n d m'
      hsplit first file_wanted parent lstat isDirectory wanted =>
    have hfile :
        Op.Adds fs (baseOf fs dir inputs) file n (.file fs file (baseOf fs dir inputs) n) :=
      .inr rfl
    have hseen := hfile.sighted (hops _ (by simp [hsplit]))
    exact ⟨above, d, hseen.of_mem_parentsBelow parent lstat, wanted, .inr isDirectory⟩

/-- A writer that nothing has been added to, and that keeps directories. -/
structure Fresh (w : Writer) : Prop where
  claims : w.claims = .empty
  members : w.members = []
  filesOnly : w.filesOnly = false

/-! #### Nothing is written that is not brought -/

lemma mem_of_addPath (hp : Sighted fs base p n) (hfull : w.filesOnly = false)
    (h : addPath fs p base n false w = .ok k w') (hm : m ∈ w'.members) :
    m ∈ w.members ∨ Wanted w.patterns base p n m := by
  obtain ⟨own, hadded⟩ := (addPath_ends fs p base n false w).of_ok h
  obtain ⟨cs, hg, -⟩ := hadded.logs.grows
  rw [hg.members, List.nil_append] at hm
  refine (List.mem_append.mp hm).imp_right fun hm => ?_
  obtain ⟨r, hr, rfl⟩ := List.mem_map.mp hm
  have hmade := hadded.logs.made r hr
  rw [hfull] at hmade
  obtain ⟨rfl, rfl⟩ := hadded.given r hr
  exact hmade.wanted hp.lstat

/-- The directories above a file are only written when the file itself was accepted. -/
lemma mem_of_addFile (hp : Sighted fs base p n) (hfull : w.filesOnly = false) (hstep : InStep w)
    (h : addFile fs p base n w = .ok k w') (hm : m ∈ w'.members) :
    m ∈ w.members ∨ Wanted w.patterns base p n m ∨ (¬ Claimed w base p n
      ∧ ∃ m' q d, Wanted w.patterns base p n m' ∧ q ∈ parentsBelow p base ∧ fs.lstat q = .ok d
        ∧ d.isDirectory = true ∧ Wanted w.patterns base q d m) := by
  obtain ⟨above, own, hadded, -⟩ := (addFile_ends fs p base n w).of_ok h
  obtain ⟨cs, hg, -⟩ := hadded.logs.grows
  have hwanted : ∀ r ∈ above ++ own, fs.lstat r.entry.source = .ok r.node →
      Wanted w.patterns base r.entry.source r.node r.member := by
    intro r hr hl
    have hmade := hadded.logs.made r hr
    rw [hfull] at hmade
    exact hmade.wanted hl
  have hfile : ∀ r ∈ own, Wanted w.patterns base p n r.member := by
    intro r hr
    obtain ⟨hsource, hnode⟩ := hadded.given r hr
    have := hwanted r (List.mem_append_right _ hr)
    rw [hsource, hnode] at this
    exact this hp.lstat
  rw [hg.members] at hm
  refine (List.mem_append.mp hm).imp_right fun hm => ?_
  obtain ⟨r, hr, rfl⟩ := List.mem_map.mp hm
  rcases List.mem_append.mp hr with habove | hown
  · obtain ⟨s, hs⟩ := List.exists_mem_of_ne_nil own (hadded.led (List.ne_nil_of_mem habove))
    have himplied := hadded.implied r habove
    refine .inr ⟨fun hclaimed => ?_, s.member, _, _, hfile s hs, himplied.parent, himplied.lstat,
      himplied.isDirectory, hwanted r hr himplied.lstat⟩
    -- a name that was claimed before is not written
    have hheld := hclaimed _ _ (hfull ▸ (hfile s hs).passes)
    rw [hfull] at hheld
    exact hadded.notMem hstep (List.mem_append_right _ hs)
      ((hstep.names _).mpr ⟨(hfile s hs).notBase, hheld⟩)
  · exact .inl (hfile r hown)

lemma brings_of_mem (hops : ∀ op ∈ ops, Called fs dir inputs op) (hw : Fresh w)
    (h : runAll ops w = .ok k w') (hm : m ∈ w'.members) :
    Brings w.patterns fs (baseOf fs dir inputs) ops m := by
  induction ops using List.reverseRecOn generalizing k w' with
  | nil =>
    obtain ⟨-, rfl⟩ := EStateM.Result.ok.inj h
    simp [hw.members] at hm
  | append_singleton ops op ih =>
    obtain ⟨a, v, b, hrun, hlast, -⟩ := runAll_append_eq_ok_iff.mp h
    rw [runAll_singleton] at hlast
    obtain ⟨rs, hv⟩ := exists_accounts hw.claims hw.members hrun
    have hfull : v.filesOnly = false := hv.filesOnly.trans hw.filesOnly
    have hbefore : ∀ o ∈ ops, Called fs dir inputs o := fun o ho =>
      hops o (List.mem_append_left _ ho)
    have hold : m ∈ v.members → Brings w.patterns fs (baseOf fs dir inputs) (ops ++ [op]) m :=
      fun hm => (ih hbefore hrun hm).append _
    cases hops op (by simp) with
    | path sighted candidate =>
      rcases mem_of_addPath sighted hfull hlast hm with hm | hm
      · exact hold hm
      · exact .added (by simp) (.inl rfl) (hv.patterns ▸ hm)
    | @file f n sighted given hn =>
      rcases mem_of_addFile sighted hfull hv.inStep hlast hm with hm | hm | ⟨hnew, hm⟩
      · exact hold hm
      · exact .added (by simp) (.inr rfl) (hv.patterns ▸ hm)
      · rw [hv.patterns] at hm
        obtain ⟨m', q, d, hfile, hq, hd, hdir, hm⟩ := hm
        refine .above rfl (fun o ho n' hadds => ?_) hfile hq hd hdir hm
        obtain rfl : n = n' := Except.ok.inj (sighted.lstat.symm.trans
          (hadds.sighted (hbefore o ho)).lstat)
        exact hnew (hadds.claimed (hv.settled o ho))
    | report d =>
      obtain ⟨-, rfl⟩ := EStateM.Result.ok.inj hlast
      have htold := (Grows.tell d v).members
      rw [List.append_nil] at htold
      exact hold (htold ▸ hm)
    | event e =>
      obtain ⟨-, rfl⟩ := EStateM.Result.ok.inj hlast
      exact hold hm
    | fail he => exact nomatch hlast

/-- The name of a file is free until an operation adds it. -/
lemma notMem_names_of_first (hops : ∀ op ∈ ops, Called fs dir inputs op) (hw : Fresh w)
    (h : runAll ops w = .ok k w') (hp : Sighted fs (baseOf fs dir inputs) p n)
    (hn : n.isDirectory = false) (first : ∀ op ∈ ops, ∀ k, ¬ op.Adds fs (baseOf fs dir inputs) p k)
    (hm : Wanted w.patterns (baseOf fs dir inputs) p n m) : m.name ∉ w'.claims.names := by
  intro hheld
  obtain ⟨rs, hw'⟩ := exists_accounts hw.claims hw.members h
  obtain ⟨m', hm', hname⟩ := List.mem_map.mp ((hw'.inStep.names _).mpr ⟨hm.notBase, hheld⟩)
  obtain ⟨q, d, hseen, hwanted, hby⟩ := (brings_of_mem hops hw h hm').sighted hops
  obtain ⟨rfl, rfl⟩ := hseen.unique hp hwanted.named (hname ▸ hm.named)
  rcases hby with ⟨op, hop, hadds⟩ | hdir
  · exact first op hop _ hadds
  · simp [hn] at hdir

/-- **The archive holds exactly what its operations bring.** -/
theorem mem_members_iff_brings (hops : ∀ op ∈ ops, Called fs dir inputs op) (hw : Fresh w)
    (h : runAll ops w = .ok k w') :
    m ∈ w'.members ↔ Brings w.patterns fs (baseOf fs dir inputs) ops m := by
  refine ⟨brings_of_mem hops hw h, fun hm => ?_⟩
  obtain ⟨rs, hw'⟩ := exists_accounts hw.claims hw.members h
  have hfull : w'.filesOnly = false := hw'.filesOnly.trans hw.filesOnly
  -- what is wanted and claimed has an entry
  have hentry : ∀ {p n m}, Sighted fs (baseOf fs dir inputs) p n →
      Claimed w' (baseOf fs dir inputs) p n → Wanted w.patterns (baseOf fs dir inputs) p n m →
      m ∈ w'.members := by
    intro p n m hp hclaimed hm
    refine mem_of_claimed hw'.inStep hfull (fun m' hm' => ?_) hp hclaimed (hw'.patterns ▸ hm)
    rw [hw'.patterns]
    obtain ⟨q, d, hseen, hwanted, -⟩ := (brings_of_mem hops hw h hm').sighted hops
    exact ⟨q, d, hseen, hwanted⟩
  cases hm with
  | added hop hadds wanted =>
    exact hentry (hadds.sighted (hops _ hop)) (hadds.claimed (hw'.settled _ hop)) wanted
  | @above before after file above n d m'
      hsplit first file_wanted parent lstat isDirectory wanted =>
    subst hsplit
    -- the run up to the file, the file, and the rest of the run
    obtain ⟨_, v, _, hbefore, hrest, -⟩ := runAll_append_eq_ok_iff.mp h
    rw [← List.singleton_append] at hrest
    obtain ⟨_, v', _, hfile, hafter, -⟩ := runAll_append_eq_ok_iff.mp hrest
    rw [runAll_singleton] at hfile
    obtain ⟨ss, hv⟩ := exists_accounts hw.claims hw.members hbefore
    obtain ⟨ts, hlogs, -, -⟩ := (runAll_ends _ v').of_ok hafter
    obtain ⟨cs, hg, -⟩ := hlogs.grows
    have hvfull : v.filesOnly = false := hv.filesOnly.trans hw.filesOnly
    cases hops (.file fs file (baseOf fs dir inputs) n) (by simp) with
    | file sighted given hn =>
      have hfree :=
        notMem_names_of_first (fun o ho => hops o (List.mem_append_left _ ho)) hw hbefore
        sighted hn first file_wanted
      have hpass := file_wanted.passes
      rw [← hv.patterns, ← hvfull] at hpass
      have hclaims := (addFile_claims hvfull hpass file_wanted.notBase hfree).of_ok hfile
      exact hentry (sighted.of_mem_parentsBelow parent lstat)
        ((hclaims above parent d lstat isDirectory).of_grows hg) wanted

/-! ### More patterns -/

/-- Patterns that let more pass make an archive larger. -/
lemma members_subset_of_kept {v v' : Writer} {l : ℕ}
    (hops : ∀ op ∈ ops, Called fs dir inputs op) (hw : Fresh w) (hv : Fresh v)
    (hrun : runAll ops w = .ok k w') (hrun' : runAll ops v = .ok l v')
    (hkept : ∀ name isDirectory, w.patterns.isIgnored name isDirectory = false →
      v.patterns.isIgnored name isDirectory = false) : w'.members ⊆ v'.members := by
  intro m hm
  rw [mem_members_iff_brings hops hv hrun']
  exact ((mem_members_iff_brings hops hw hrun).mp hm).mono hkept

end

end DeployClient.Archive
