import DeployClient.Proofs.Exactness
import DeployClient.Proofs.GivenUp

/-!
Inputs that are covered by others.

A node that has been judged once and is judged again meets its own claim, or the filter that it
met before. So a further input that leads to what the inputs before have reached adds nothing to
the archive; something more is told, and that is all.
-/

namespace DeployClient.Archive

open Tar (Member)
open DeployClient.Path (IsName ofNames)

variable {fs : FileSystem} {dir base p q root : Path} {inputs : List Path} {n d : Node} {op : Op}
  {ops : List Op} {w w' w'' : Writer}

/-! ### Below a directory -/

/-- A path that leads somewhere, at or below another one, and there are directories, not links,
at that other one and all the way down. -/
structure Beneath (fs : FileSystem) (root p : Path) : Prop where
  below : p.startsWith root = true
  found : ∃ n, fs.lstat p = .ok n
  between : ∀ q, q.IsNormal → q.startsWith root = true → p.startsWith q = true → q ≠ p →
    ∃ d, fs.lstat q = .ok d ∧ d.isDirectory = true

namespace Beneath

lemma self (hroot : root.IsNormal) (hn : fs.lstat root = .ok n) : Beneath fs root root where
  below := Path.startsWith_self root
  found := ⟨n, hn⟩
  between := fun _ hq hdown hup hne => absurd (Path.eq_of_startsWith hq hroot hdown hup) hne

lemma child {name : Bytes} (hp : p.IsNormal) (hname : IsName name) (h : Beneath fs root p)
    (hd : fs.lstat p = .ok d) (hdir : d.isDirectory = true) (hn : fs.lstat (p.child name) = .ok n) :
    Beneath fs root (p.child name) where
  below := Path.startsWith_child hp hname h.below
  found := ⟨n, hn⟩
  between := by
    intro q hq hdown hup hne
    by_cases he : q = p
    · exact ⟨d, he ▸ hd, hdir⟩
    · refine h.between q hq hdown ?_ he
      rw [Path.startsWith_iff, Path.components_child hp hname, List.prefix_concat_iff] at hup
      rcases hup with hup | hup
      · rw [← Path.components_child hp hname] at hup
        exact absurd (Path.eq_of_components hq (hp.child hname) hup) hne
      · exact Path.startsWith_iff.mpr hup

end Beneath

/-- **What lies beneath a path is reached by a walk from it.** -/
theorem Beneath.descends (hroot : root.IsNormal) (hp : p.IsNormal) (h : Beneath fs root p)
    (hd : fs.lstat root = .ok d) : ∃ n, fs.lstat p = .ok n ∧ Node.Descends root d p n := by
  obtain ⟨bs, rest, hbelow⟩ := Path.below_of_startsWith hroot hp h.below
  induction rest generalizing bs root d with
  | nil =>
    obtain rfl : p = root := by rw [hbelow.path, hbelow.base, List.append_nil]
    exact ⟨d, hd, .self⟩
  | cons name rest ih =>
    have hbs : ∀ n ∈ bs, IsName n := fun n hn => hbelow.isName n (List.mem_append_left _ hn)
    have hname : IsName name := hbelow.isName name (by simp)
    have hchild : root.child name = ofNames true (bs ++ [name]) := by
      rw [hbelow.base, Path.child_ofNames hbs hname]
    have hnormal : (root.child name).IsNormal := hroot.child hname
    have hbelow' : Path.Below (root.child name) p (bs ++ [name]) rest :=
      ⟨hchild, by rw [hbelow.path, List.append_assoc]; rfl, by simpa using hbelow.isName⟩
    have hstart : p.startsWith (root.child name) = true := by
      rw [Path.startsWith_iff, hbelow'.base, hbelow'.path, Path.components_ofNames hbelow'.isName,
        Path.components_ofNames fun n hn => hbelow'.isName n (List.mem_append_left _ hn)]
      simp
    have hdown : (root.child name).startsWith root = true :=
      Path.startsWith_child hroot hname (Path.startsWith_self root)
    -- one step down, and then the rest of the way
    have hne : root ≠ p := by
      intro he
      have := Path.ofNames_injective hbs hbelow.isName
        (hbelow.base.symm.trans (he.trans hbelow.path))
      simp at this
    obtain ⟨d', hd', hdir⟩ := h.between root hroot (Path.startsWith_self root) h.below hne
    obtain rfl : d = d' := Except.ok.inj (hd.symm.trans hd')
    have hfound : ∃ k, fs.lstat (root.child name) = .ok k := by
      by_cases he : root.child name = p
      · rw [he]
        exact h.found
      · obtain ⟨k, hk, -⟩ := h.between _ hnormal hdown hstart he
        exact ⟨k, hk⟩
    obtain ⟨k, hk⟩ := hfound
    have hmem := FileSystem.mem_entries_of_lstat hroot hname hd hdir hk
    have hlower : Beneath fs (root.child name) p :=
      ⟨hstart, h.found, fun q hq hqroot => h.between q hq (Path.startsWith_trans hqroot hdown)⟩
    obtain ⟨n, hn, hdesc⟩ := ih hnormal hlower hk _ hbelow'
    exact ⟨n, hn, .trans (.child .self hmem) hdesc⟩

/-- A further input leads to what another input leads to, or to something beneath that. -/
def Covered (fs : FileSystem) (dir : Path) (inputs : List Path) (q : Path) : Prop :=
  ∃ p, Path.resolveWithin dir q = some p ∧ ∃ input ∈ inputs, ∃ root,
    Path.resolveWithin dir input = some root ∧ (p = root ∨ Beneath fs root p)

/-! ### Judging again -/

/-- Something has been told, and nothing else has changed. -/
def Told (w w' : Writer) : Prop := ∃ ns, w' = { w with notes := w.notes ++ ns }

namespace Told

lemma refl (w : Writer) : Told w w := ⟨[], by simp⟩

lemma trans (h : Told w w') (h' : Told w' w'') : Told w w'' := by
  obtain ⟨ns, rfl⟩ := h
  obtain ⟨ms, rfl⟩ := h'
  exact ⟨ns ++ ms, by simp⟩

lemma note (told : Note) (w : Writer) : Told w (w.note told) := ⟨[told], rfl⟩

lemma tell (diagnostic : Diagnostic) (w : Writer) : Told w (w.tell diagnostic) := by
  unfold Writer.tell
  split
  · exact refl w
  · exact note _ w

lemma grows (h : Told w w') : Grows w w' [] [] := by
  obtain ⟨ns, rfl⟩ := h
  exact ⟨rfl, rfl, rfl, rfl, by simp, by simp, id⟩

end Told

/-- A node whose name is taken, if it passes the filters, is passed over. -/
lemma accept_claimed (hp : Sighted fs base p n) (hc : Claimed w base p n) (implied : Bool) :
    Ends (accept fs p base n implied) w (fun r w' => r = none ∧ Told w w') fun _ _ => False := by
  unfold accept
  refine Ends.bind (Q := fun a w' => a = w ∧ w' = w) (Ends.get ⟨rfl, rfl⟩) ?_
  rintro _ _ ⟨rfl, rfl⟩
  next w =>
  rcases hj : w.judge p base n implied with _ | _ | d | ⟨name, path, first⟩ | ⟨name, kind⟩
  · exact absurd (nameBelow_of_judge_outside hj) hp.not_outside
  · exact Ends.pure ⟨rfl, Told.refl w⟩
  · refine Ends.bind (Q := fun _ w' => Told w w') (Ends.modify (Told.tell d w)) ?_
    exact fun _ w' h => Ends.pure ⟨rfl, h⟩
  · refine Ends.bind (Q := fun _ w' => Told w w') (Ends.modify (Told.note _ w)) ?_
    intro _ w' h
    refine Ends.bind (Q := fun _ w' => Told w w') (Ends.modify (h.trans (Told.tell _ w'))) ?_
    exact fun _ w'' h => Ends.pure ⟨rfl, h⟩
  · -- a free name would be one that is not claimed
    obtain ⟨path, kind', hpass, hname⟩ := passes_of_judge hj (.inl ⟨name, kind, rfl⟩)
    obtain ⟨rfl, -, hfree⟩ := judgeName_eq_claims hname
    exact absurd (hc path kind' hpass) (Claims.holder?_eq_none_iff.mp hfree)

/-- The operation has nothing left to do: its node has been judged. -/
inductive Op.Idle (fs : FileSystem) (base : Path) (w : Writer) : Op → Prop
  | path {p : Path} {n : Node} (sighted : Sighted fs base p n) (claimed : Claimed w base p n) :
      Idle fs base w (.path fs p base n)
  | file {p : Path} {n : Node} (sighted : Sighted fs base p n) (claimed : Claimed w base p n) :
      Idle fs base w (.file fs p base n)
  | report (d : Diagnostic) : Idle fs base w (.report d)
  | event (e : Event) : Idle fs base w (.event e)

lemma Op.Idle.of_told (h : op.Idle fs base w) (ht : Told w w') : op.Idle fs base w' := by
  cases h with
  | path sighted claimed => exact .path sighted (claimed.of_grows ht.grows)
  | file sighted claimed => exact .file sighted (claimed.of_grows ht.grows)
  | report d => exact .report d
  | event e => exact .event e

lemma run_idle (h : op.Idle fs base w) :
    Ends op.run w (fun k w' => k = 0 ∧ Told w w') fun _ _ => False := by
  cases h with
  | path sighted claimed =>
    refine Ends.bind (accept_claimed sighted claimed false) ?_
    rintro _ w' ⟨rfl, h⟩
    exact Ends.pure ⟨rfl, h⟩
  | file sighted claimed =>
    refine Ends.bind (accept_claimed sighted claimed false) ?_
    rintro _ w' ⟨rfl, h⟩
    exact Ends.pure ⟨rfl, h⟩
  | report d =>
    refine Ends.bind (Q := fun _ w' => Told w w') (Ends.modify (Told.tell d w)) ?_
    exact fun _ w' h => Ends.pure ⟨rfl, h⟩
  | event e =>
    refine Ends.bind (Q := fun _ w' => Told w w') (Ends.modify (Told.note _ w)) ?_
    exact fun _ w' h => Ends.pure ⟨rfl, h⟩

/-- **Operations with nothing left to do only tell something.** -/
theorem runAll_idle (h : ∀ op ∈ ops, op.Idle fs base w) :
    Ends (runAll ops) w (fun k w' => k = 0 ∧ Told w w') fun _ _ => False := by
  induction ops generalizing w with
  | nil => exact Ends.pure ⟨rfl, Told.refl w⟩
  | cons op ops ih =>
    refine Ends.bind (run_idle (h op List.mem_cons_self)) ?_
    rintro _ w' ⟨rfl, ht⟩
    refine Ends.bind (ih fun o ho => (h o (List.mem_cons_of_mem _ ho)).of_told ht) ?_
    rintro _ w'' ⟨rfl, ht'⟩
    exact Ends.pure ⟨rfl, ht.trans ht'⟩

/-! ### A further input -/

section

variable {filesOnly : Bool} {options : Options} {k : Nat} {rs : List Record}

/-- After a run, what a covered input calls for has been done. -/
lemma idle_of_covered (hfs : fs.root.isProper = true) (hdir : dir.IsNormal)
    (hmany : inputs.length ≠ 1) (h : Accounts (buildOps fs dir inputs) w w' k rs)
    (hq : Covered fs dir inputs q) : ∀ op ∈ inputOps fs dir false q, op.Idle fs dir w' := by
  obtain ⟨p, hresolve, input, hinput, root, hroot, hcover⟩ := hq
  obtain ⟨hnormal, -⟩ := Path.resolveWithin_spec hdir hresolve
  have hbase : baseOf fs dir inputs = dir := baseOf_of_many hmany
  obtain ⟨d, hd⟩ := h.exists_lstat hinput hroot
  have hgiven : Given fs dir inputs root d := ⟨input, hinput, hroot, hd⟩
  obtain ⟨n, hn, hdesc⟩ : ∃ n, fs.lstat p = .ok n ∧ Node.Descends root d p n := by
    rcases hcover with rfl | hcover
    · exact ⟨d, hd, .self⟩
    · exact hcover.descends (Path.resolveWithin_spec hdir hroot).1 hnormal hd
  have hseen : ∀ p' k, Node.Descends p n p' k → Sighted fs dir p' k ∧ Claimed w' dir p' k := by
    intro p' k hlower
    have := h.of_candidate hfs hdir ⟨root, d, hgiven, hdesc.trans hlower⟩
    rwa [hbase] at this
  intro op hop
  unfold inputOps at hop
  simp only [hresolve, hn] at hop
  split at hop
  · next hdirectory =>
    simp only [Bool.false_eq_true, if_false] at hop
    rcases List.mem_cons.mp hop with rfl | hop
    · exact .event _
    · rw [walkOps, visits_of_directory hn hdirectory] at hop
      obtain ⟨v, hv, hop⟩ := List.mem_flatMap.mp hop
      have hlower := Node.mem_visits_iff_descends.mp hv
      obtain ⟨hsighted, hclaimed⟩ := hseen v.1 v.2 hlower
      rcases mem_visitOps.mp hop with rfl | ⟨rfl, hn⟩
      · simp only [visitOp, hsighted.lstat]
        exact .path hsighted hclaimed
      · -- the run has been there before, and would have ended
        exact (h.settled _ (Candidate.mem_fail ⟨root, d, hgiven, hdesc.trans hlower⟩ hn)).elim
  · rw [List.mem_singleton.mp hop]
    obtain ⟨hsighted, hclaimed⟩ := hseen p n .self
    exact .file hsighted hclaimed

/-- How an archive is begun does not depend on how many inputs there are, if there are any. -/
lemma prepare_concat (h : inputs ≠ []) :
    prepare fs filesOnly (inputs ++ [q]) options = prepare fs filesOnly inputs options := by
  have hempty : inputs.isEmpty = false := by simpa using h
  have hempty' : (inputs ++ [q]).isEmpty = false := by simp
  unfold prepare
  rw [hempty, hempty']

/-- A completed run goes on over a covered input, and only tells something. -/
lemma Completed.covered (hfs : fs.root.isProper = true) (hmany : 2 ≤ inputs.length)
    (h : Completed fs filesOnly inputs options dir w k w') (hq : Covered fs dir inputs q) :
    ∃ w'', Completed fs filesOnly (inputs ++ [q]) options dir w k w'' ∧ Told w' w'' := by
  have hprep := prepared_of_prepare h.prepare
  have hone : decide (inputs.length = 1) = false := decide_eq_false (by omega)
  have hone' : decide ((inputs ++ [q]).length = 1) = false := decide_eq_false (by
    rw [List.length_append, List.length_singleton]
    omega)
  have hrun := h.run
  rw [archiveInputs_eq_runAll] at hrun
  obtain ⟨rs, hrs⟩ := exists_accounts hprep.claims hprep.members hrun
  have hidle := idle_of_covered hfs hprep.normal (by omega) hrs hq
  obtain ⟨b, w'', hrest, rfl, htold⟩ := (runAll_idle hidle).exists_ok fun _ _ => id
  refine ⟨w'', ⟨?_, ?_, htold.grows.sinkFault.trans h.sink⟩, htold⟩
  · rw [prepare_concat (List.ne_nil_of_length_pos (by omega)), h.prepare]
  · rw [hone] at hrun
    rw [hone', archiveInputs_eq_runAll, List.flatMap_append, List.flatMap_singleton]
    exact runAll_append_eq_ok_iff.mpr ⟨_, _, _, hrun, hrest, rfl⟩

lemma Completed.outcome (h : Completed fs filesOnly inputs options dir w k w') :
    (build fs filesOnly inputs options).received = w'.bytes options.compression
      ∧ (build fs filesOnly inputs options).notes = w'.notes ++ [.event (.archiveCreated k)] := by
  unfold build
  rw [h.prepare]
  simp only [archiveAll_of_ok h.run, finish_eq, h.sink]
  by_cases hk : k = 0
  · simp only [hk, if_true]
    exact ⟨rfl, rfl⟩
  · simp only [if_neg hk]
    exact ⟨rfl, rfl⟩

/-- **A covered input adds nothing.** After two or more inputs that no I/O error has ended, one
that leads to the same path as another, or to something beneath it, leaves the result, the bytes
received and the entries as they are; only more is told, before the end. -/
theorem covered_input_absorbed (hfs : fs.root.isProper = true) (hmany : 2 ≤ inputs.length)
    (hdir : workingDirectory fs options.workingDir = .ok dir)
    (hdone : ¬ (build fs filesOnly inputs options).Aborted) (hq : Covered fs dir inputs q) :
    (build fs filesOnly (inputs ++ [q]) options).result = (build fs filesOnly inputs options).result
    ∧ (build fs filesOnly (inputs ++ [q]) options).received
      = (build fs filesOnly inputs options).received
    ∧ entriesOf fs filesOnly (inputs ++ [q]) options = entriesOf fs filesOnly inputs options
    ∧ ∃ told more last, (build fs filesOnly inputs options).notes = told ++ last
      ∧ (build fs filesOnly (inputs ++ [q]) options).notes = told ++ more ++ last := by
  have hprepare :
      prepare fs filesOnly (inputs ++ [q]) options = prepare fs filesOnly inputs options :=
    prepare_concat (List.ne_nil_of_length_pos (by omega))
  rcases hprep : prepare fs filesOnly inputs options with ⟨e, notes⟩ | ⟨dir', w⟩
  · -- the archive could not even be begun
    have hnone : ∀ l, prepare fs filesOnly l options = .error (e, notes) →
        build fs filesOnly l options = ⟨.error e, none, notes⟩
          ∧ entriesOf fs filesOnly l options = [] := by
      intro l hl
      simp [build, entriesOf, lastWriter, hl]
    obtain ⟨hbuild, hentries⟩ := hnone _ hprep
    obtain ⟨hbuild', hentries'⟩ := hnone _ (hprepare.trans hprep)
    rw [hbuild, hbuild', hentries, hentries']
    exact ⟨rfl, rfl, rfl, notes, [], [], by simp, by simp⟩
  · obtain rfl : dir' = dir := Except.ok.inj ((prepared_of_prepare hprep).directory.symm.trans hdir)
    obtain ⟨k, w', hall⟩ := completed_of_not_aborted hfs hprep hdone
    obtain ⟨w'', hall', htold⟩ := hall.covered hfs hmany hq
    obtain ⟨hreceived, hnotes⟩ := hall.outcome
    obtain ⟨hreceived', hnotes'⟩ := hall'.outcome
    obtain ⟨ns, rfl⟩ := htold
    refine ⟨by rw [hall.result, hall'.result], by rw [hreceived, hreceived']; rfl,
      by rw [hall.entriesOf_eq, hall'.entriesOf_eq], w'.notes, ns, _, hnotes, hnotes'⟩

/-- A file below a directory that is an input, and a second spelling of a link. -/
theorem covered_input_absorbed_spellings :
    let d := Node.directory ⟨0o755, 6, .root⟩ [(Bytes.ofText "f", .file ⟨0o644, 5, .root⟩ [104])]
    let fs : FileSystem := ⟨.directory ⟨0o755, 0, .root⟩ [(Bytes.ofText "d", d),
      (Bytes.ofText "l", .symlink ⟨0o777, 7, .root⟩ (Bytes.ofText "d"))], [], 0, .root⟩
    let inputs := [Path.ofText "d", .ofText "l"]
    (entriesOf fs false inputs .plain).map Member.name
        = [Bytes.ofText "d", Bytes.ofText "d/f", Bytes.ofText "l"]
      ∧ entriesOf fs false (inputs ++ [.ofText "d/f"]) .plain = entriesOf fs false inputs .plain
      ∧ entriesOf fs true (inputs ++ [.ofText "x/.././l"]) .plain
        = entriesOf fs true inputs .plain := by
  intro d fs inputs
  have hproper : fs.root.isProper = true := by decide
  have hdir : workingDirectory fs Options.plain.workingDir = .ok (.ofText "/") := by decide +kernel
  have hdone : ¬ (build fs false inputs .plain).Aborted :=
    not_aborted_of_ok (ok_of_toBool (by decide +kernel))
  have hdone' : ¬ (build fs true inputs .plain).Aborted :=
    not_aborted_of_ok (ok_of_toBool (by decide +kernel))
  have hnormal : (Path.ofText "/d").IsNormal := ⟨[Bytes.ofText "d"], by decide, by decide⟩
  have hbeneath : Beneath fs (.ofText "/d") (.ofText "/d/f") :=
    .child hnormal (show IsName (Bytes.ofText "f") by decide) (.self hnormal rfl) rfl rfl rfl
  have hfile : Covered fs (.ofText "/") inputs (.ofText "d/f") :=
    ⟨.ofText "/d/f", by decide +kernel, .ofText "d", by decide, .ofText "/d", by decide +kernel,
      .inr hbeneath⟩
  have hlink : Covered fs (.ofText "/") inputs (.ofText "x/.././l") :=
    ⟨.ofText "/l", by decide +kernel, .ofText "l", by decide, .ofText "/l", by decide +kernel,
      .inl rfl⟩
  exact ⟨by decide +kernel,
    (covered_input_absorbed hproper (by decide) hdir hdone hfile).2.2.1,
    (covered_input_absorbed hproper (by decide) hdir hdone' hlink).2.2.1⟩

end

end DeployClient.Archive
