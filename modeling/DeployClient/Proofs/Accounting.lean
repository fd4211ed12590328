import DeployClient.Proofs.Bookkeeping
import Mathlib.Data.List.Forall2

/-!
Everything that an archive run comes to is accounted for.

Each input leads to its turns, and the entries and the messages of a run are those of all turns, in
this order, after the ignore files have been announced.
-/

namespace DeployClient.Archive

open Tar (Member)

variable {fs : FileSystem} {dir input : Path} {patterns : Ignore.Patterns} {filesOnly : Bool}
  {w v w₀ : Writer} {before : List Turn} {start : List Diagnostic} {inputs rest : List Path} {k : ℕ}
  {options : Options}

/-! ### The turns of an input -/

/-- The turns that an input leads to: one if it lies outside, one for everything that is found in a
directory, and for a file its own, after those of the directories above it if it has an entry and
directories are kept. -/
inductive Covers (fs : FileSystem) (dir : Path) (filesOnly : Bool) (input : Path) :
    List Turn → Prop
  | outside {fate : Fate} (h : Path.resolveWithin dir input = none) :
      Covers fs dir filesOnly input [⟨.outside input, fate⟩]
  | walked {root : Path} {d : Node} {turns : List Turn}
      (h : Path.resolveWithin dir input = some root) (hl : fs.lstat root = .ok d)
      (hd : d.isDirectory = true)
      (stops : turns.map Turn.stop = (d.visits root).map fun u => .visited u.1 u.2) :
      Covers fs dir filesOnly input turns
  | given {root : Path} {n : Node} {above : List Turn} {fate : Fate}
      (h : Path.resolveWithin dir input = some root) (hl : fs.lstat root = .ok n)
      (hn : n.isDirectory = false)
      (stops : above.map Turn.stop = if filesOnly = false ∧ fate.member?.isSome then
          (directoriesAt fs (parentsBelow root dir)).map fun u => .implied u.1 u.2
        else []) :
      Covers fs dir filesOnly input (above ++ [⟨.visited root n, fate⟩])

lemma runAll_cons_eq_ok {op : Op} {ops : List Op} (h : runAll (op :: ops) w = .ok k v) :
    ∃ a u b, op.run w = .ok a u ∧ runAll ops u = .ok b v := by
  rw [← List.singleton_append, runAll_append_eq_ok_iff] at h
  obtain ⟨a, u, b, hop, hops, -⟩ := h
  rw [runAll_singleton] at hop
  exact ⟨a, u, b, hop, hops⟩

lemma run_fail_ne_ok {e : Error} : (Op.fail e).run w ≠ .ok k v := nofun

/-- Only what may be listed is left behind by a walk that goes on. -/
lemma runAll_visitOps_eq_ok {base : Path} {u : Visit} {ops : List Op}
    (h : runAll (visitOps fs base u ++ ops) w = .ok k v) :
    ∃ a w₁ b, (visitOp fs base u.1).run w = .ok a w₁ ∧ runAll ops w₁ = .ok b v := by
  rw [visitOps] at h
  obtain ⟨a, w₁, b, hop, hrest⟩ := runAll_cons_eq_ok h
  split at hrest
  · exact ⟨a, w₁, b, hop, hrest⟩
  · obtain ⟨a', w₂, b', hfail, -⟩ := runAll_cons_eq_ok hrest
    exact absurd hfail run_fail_ne_ok

/-- A walk adds one turn for everything that it shows. -/
lemma walk_books {us : List Visit} (hc : w₀.claims = .empty) (hm : w₀.members = [])
    (hus : ∀ u ∈ us, Called fs dir inputs (visitOp fs (baseOf fs dir inputs) u.1))
    (hstand : ∀ u ∈ us, ∀ n, fs.lstat u.1 = .ok n → n = u.2)
    (hb : Books fs (baseOf fs dir inputs) patterns filesOnly start before w)
    (hr : Reached fs dir inputs w₀ w)
    (hrun : runAll (us.flatMap (visitOps fs (baseOf fs dir inputs))) w = .ok k v) :
    ∃ turns, turns.map Turn.stop = us.map (fun u => .visited u.1 u.2)
      ∧ Books fs (baseOf fs dir inputs) patterns filesOnly start (before ++ turns) v := by
  induction us generalizing before w k with
  | nil =>
    obtain ⟨-, rfl⟩ := EStateM.Result.ok.inj hrun
    exact ⟨[], rfl, by rwa [List.append_nil]⟩
  | cons u us ih =>
    rw [List.flatMap_cons] at hrun
    obtain ⟨a, v₁, b, hop, hrest⟩ := runAll_visitOps_eq_ok hrun
    have hcalled := hus u List.mem_cons_self
    have hr₁ : Reached fs dir inputs w₀ v₁ := hr.run (List.forall_mem_singleton.mpr hcalled)
      ((runAll_singleton _).symm ▸ hop)
    rcases hl : fs.lstat u.1 with e | n
    · simp only [visitOp, hl] at hop
      exact absurd hop run_fail_ne_ok
    · obtain rfl := hstand u List.mem_cons_self n hl
      simp only [visitOp, hl] at hop hcalled
      cases hcalled with
      | path sighted candidate =>
        obtain ⟨fate, hfirst⟩ := addPath_books hb (hr.sound hc hm).inStep sighted hop
        obtain ⟨turns, hstops, hall⟩ := ih (fun x hx => hus x (List.mem_cons_of_mem _ hx))
          (fun x hx => hstand x (List.mem_cons_of_mem _ hx)) hfirst hr₁ hrest
        refine ⟨⟨.visited u.1 u.2, fate⟩ :: turns, ?_, ?_⟩
        · rw [List.map_cons, hstops, List.map_cons]
        · rwa [List.append_assoc, List.singleton_append] at hall

/-- **An input** adds the turns that it leads to. -/
theorem input_books (hfs : fs.root.isProper = true) (hdir : dir.IsNormal)
    (hc : w₀.claims = .empty) (hm : w₀.members = []) (hmem : input ∈ inputs)
    (hb : Books fs (baseOf fs dir inputs) patterns filesOnly start before w)
    (hr : Reached fs dir inputs w₀ w)
    (hrun : runAll (inputOps fs dir (inputs.length = 1) input) w = .ok k v) :
    ∃ turns, Covers fs dir filesOnly input turns
      ∧ Books fs (baseOf fs dir inputs) patterns filesOnly start (before ++ turns) v := by
  have hcalled : ∀ op ∈ inputOps fs dir (inputs.length = 1) input, Called fs dir inputs op :=
    fun op hop => called_of_mem hfs hdir (List.mem_flatMap.mpr ⟨input, hmem, hop⟩)
  rcases hroot : Path.resolveWithin dir input with _ | root
  · simp only [inputOps, hroot, runAll_singleton] at hrun
    obtain ⟨-, rfl⟩ := EStateM.Result.ok.inj hrun
    refine ⟨_, .outside hroot, hb.add (Grows.tell _ w) ?_ (by simp) (by simp) (.outside input)⟩
    rw [diagnostics_tell, hb.mute]
    rfl
  · rcases hl : fs.lstat root with e | n
    · simp only [inputOps, hroot, hl, runAll_singleton] at hrun
      exact absurd hrun run_fail_ne_ok
    · have hgiven : Given fs dir inputs root n := ⟨input, hmem, hroot, hl⟩
      cases hdirectory : n.isDirectory with
      | true =>
        have hbase := baseOf_of_directory hmem hroot hl hdirectory
        have hops : inputOps fs dir (inputs.length = 1) input
            = .event (.archivingDirectory root (baseOf fs dir inputs))
              :: (n.visits root).flatMap (visitOps fs (baseOf fs dir inputs)) := by
          simp only [inputOps, hroot, hl, hdirectory, if_true, decide_eq_true_eq, ← hbase, walkOps,
            visits_of_directory hl hdirectory]
        rw [hops] at hrun hcalled
        obtain ⟨a, u, b, hevent, hrest⟩ := runAll_cons_eq_ok hrun
        obtain ⟨-, rfl⟩ := EStateM.Result.ok.inj hevent
        obtain ⟨hfirst, hothers⟩ := List.forall_mem_cons.mp hcalled
        have hr₁ : Reached fs dir inputs w₀ _ := hr.run (List.forall_mem_singleton.mpr hfirst)
          ((runAll_singleton _).symm ▸ hevent)
        obtain ⟨hnormal, -⟩ := Path.resolveWithin_spec hdir hroot
        obtain ⟨turns, hstops, hbooks⟩ := walk_books hc hm
          (fun u hu => hothers _ (List.mem_flatMap.mpr ⟨u, hu, mem_visitOps.mpr (.inl rfl)⟩))
          (fun u hu => (descends_spec hfs hnormal hl
            (Node.mem_visits_iff_descends.mp hu)).2.2.2) (hb.note _) hr₁ hrest
        exact ⟨turns, .walked hroot hl hdirectory hstops, hbooks⟩
      | false =>
        have hbase := baseOf_of_file hmem hroot hl hdirectory
        have hops : inputOps fs dir (inputs.length = 1) input
            = [.file fs root (baseOf fs dir inputs) n] := by
          simp [inputOps, hroot, hl, hdirectory, hbase]
        rw [hops] at hrun hcalled
        rw [runAll_singleton] at hrun
        cases hcalled _ (List.mem_singleton_self _) with
        | file sighted given hn =>
          obtain ⟨above, fate, hbooks, hstops⟩ := addFile_books hb (hr.sound hc hm) sighted hrun
          rw [hbase] at hstops
          exact ⟨_, .given hroot hl hdirectory hstops, hbooks⟩

/-! ### Runs -/

/-- **The inputs of a run** add their turns one after the other. -/
theorem inputs_books (hfs : fs.root.isProper = true) (hdir : dir.IsNormal)
    (hc : w₀.claims = .empty) (hm : w₀.members = []) (hrest : rest ⊆ inputs)
    (hb : Books fs (baseOf fs dir inputs) patterns filesOnly start before w)
    (hr : Reached fs dir inputs w₀ w)
    (hrun : runAll (rest.flatMap (inputOps fs dir (inputs.length = 1))) w = .ok k v) :
    ∃ parts, List.Forall₂ (Covers fs dir filesOnly) rest parts
      ∧ Books fs (baseOf fs dir inputs) patterns filesOnly start (before ++ parts.flatten) v := by
  induction rest generalizing before w k with
  | nil =>
    obtain ⟨-, rfl⟩ := EStateM.Result.ok.inj hrun
    exact ⟨[], .nil, by simpa using hb⟩
  | cons input rest ih =>
    rw [List.flatMap_cons, runAll_append_eq_ok_iff] at hrun
    obtain ⟨a, u, b, hfirst, hothers, -⟩ := hrun
    obtain ⟨hmem, hrest⟩ := List.cons_subset.mp hrest
    obtain ⟨turns, hcovers, hbooks⟩ := input_books hfs hdir hc hm hmem hb hr hfirst
    have hcalled : ∀ op ∈ inputOps fs dir (inputs.length = 1) input, Called fs dir inputs op :=
      fun op hop => called_of_mem hfs hdir (List.mem_flatMap.mpr ⟨input, hmem, hop⟩)
    obtain ⟨parts, hall, hbooks⟩ := ih hrest hbooks (hr.run hcalled hfirst) hothers
    exact ⟨turns :: parts, .cons hcovers hall, by rwa [List.append_assoc] at hbooks⟩

/-! ### Before the inputs -/

/-- The ignore files that can be read are announced. -/
def announcements (fs : FileSystem) (dir : Path) (files : List Path) : List Diagnostic :=
  (files.filter fun file => (fs.readText (dir.join file)).toBool).map .usingPatterns

lemma announced_eq {files : List Path} {lines : List String}
    (h : (Ignore.readFiles fs dir files).lines = .ok lines) :
    (Ignore.readFiles fs dir files).announced
      = files.filter fun file => (fs.readText (dir.join file)).toBool := by
  induction files generalizing lines with
  | nil => rfl
  | cons file files ih =>
    unfold Ignore.readFiles at h ⊢
    cases hread : fs.readText (dir.join file) with
    | ok text =>
      rw [hread] at h
      simp only at h ⊢
      cases hrest : (Ignore.readFiles fs dir files).lines with
      | error e => simp [hrest, Except.map] at h
      | ok others =>
        rw [List.filter_cons_of_pos (by rw [hread]; rfl), ih hrest]
    | error e =>
      rw [hread] at h
      simp only at h ⊢
      rw [List.filter_cons_of_neg (by rw [hread]; simp [Except.toBool])]
      split at h
      · next hmissing =>
        rw [if_pos hmissing]
        exact ih h
      · simp at h

lemma told_of_load {patterns : Ignore.Patterns} {files : List Path}
    (h : (Ignore.load fs dir files).1 = .ok patterns) :
    (Ignore.load fs dir files).2.filterMap Note.diagnostic? = announcements fs dir files := by
  cases hlines : (Ignore.readFiles fs dir files).lines with
  | error e => simp [Ignore.load, hlines] at h
  | ok lines =>
    simp only [Ignore.load, hlines, announced_eq hlines, announcements, List.filterMap_append,
      List.filterMap_map]
    rw [List.filterMap_cons_none rfl, List.filterMap_nil, List.append_nil]
    exact congrFun List.filterMap_eq_map _

lemma diagnostics_of_prepare (h : prepare fs filesOnly inputs options = .ok (dir, w))
    (hmute : options.mute = false) :
    w.mute = false ∧ w.diagnostics = announcements fs dir options.ignoreFiles := by
  have hprep := prepared_of_prepare h
  unfold prepare at h
  split at h
  · simp at h
  · rw [hprep.directory] at h
    simp only at h
    split at h
    · simp at h
    · obtain ⟨-, rfl⟩ := Prod.mk.inj (Except.ok.inj h)
      refine ⟨hmute, ?_⟩
      rw [← told_of_load hprep.patterns]
      simp [Writer.diagnostics, hmute]

/-! ### Accounts -/

/-- Everything that the inputs lead to is accounted for, each with one turn. -/
structure Accounted (fs : FileSystem) (dir : Path) (inputs : List Path)
    (patterns : Ignore.Patterns) (filesOnly : Bool) (start : List Diagnostic)
    (parts : List (List Turn)) (entries : List Member) (told : List Diagnostic) : Prop where
  /-- Each input leads to its turns. -/
  covers : List.Forall₂ (Covers fs dir filesOnly) inputs parts
  /-- No entry belongs to anything else, -/
  entries : entries = membersOf parts.flatten
  /-- and after the start no message does. -/
  told : told = start ++ toldOf parts.flatten
  /-- Each turn is as it should be after those before it. -/
  fair : ∀ before t after, parts.flatten = before ++ t :: after →
    Fair patterns filesOnly (baseOf fs dir inputs) before t
  /-- What is told at a turn names what it is told of. -/
  named : ∀ t ∈ parts.flatten, ∀ x, t.fate.told? = some x →
    Mentions x (t.stop.label (baseOf fs dir inputs))

lemma Completed.notes {n : ℕ} (h : Completed fs filesOnly inputs options dir w n v) :
    (build fs filesOnly inputs options).notes.filterMap Note.diagnostic? = v.diagnostics := by
  unfold build
  rw [h.prepare]
  simp only [archiveAll_of_ok h.run, finish_eq, h.sink]
  by_cases hn : n = 0 <;>
  · simp only [hn, if_true, if_false]
    exact diagnostics_event _ v

/-- **Nothing is dropped silently.** If a run has not been given up, everything that its inputs lead
to has one turn, with an entry or a message of its own, or it is passed over for a reason. -/
theorem archive_accounted {paths : List Path} (hfs : fs.root.isProper = true)
    (hmute : options.mute = false)
    (hdone : (build fs filesOnly paths options).result = .ok ()
      ∨ (build fs filesOnly paths options).result = .error .nothingArchived) :
    ∃ dir patterns w parts, workingDirectory fs options.workingDir = .ok dir
      ∧ (Ignore.load fs dir options.ignoreFiles).1 = .ok patterns
      ∧ lastWriter fs filesOnly paths options = some w
      ∧ (build fs filesOnly paths options).received
        = some (Gzip.encode options.compression (Tar.encode w.members))
      ∧ Accounted fs dir paths patterns filesOnly (announcements fs dir options.ignoreFiles) parts
        w.members ((build fs filesOnly paths options).notes.filterMap Note.diagnostic?) := by
  rcases completed_or_error fs filesOnly paths options with ⟨dir, w₀, n, w, hall⟩ | ⟨e, hne, he⟩
  · have hprep := prepared_of_prepare hall.prepare
    have hcalled := called_of_subset hfs hprep.normal (List.Subset.refl paths)
    have hrun := hall.run
    rw [archiveInputs_eq_runAll] at hrun
    have hsink := ((runAll_given_up hcalled w₀).of_ok hrun).sinkFault
    obtain ⟨hquiet, hstart⟩ := diagnostics_of_prepare hall.prepare hmute
    have hbegin : Books fs (baseOf fs dir paths) w₀.patterns filesOnly w₀.diagnostics [] w₀ := by
      refine ⟨rfl, hprep.filesOnly, hquiet, hsink.symm.trans hall.sink, hprep.members, ?_, ?_, ?_⟩
      · simp [toldOf]
      · simp [hprep.claims, Claims.names, Claims.empty, VisitedIn]
      · simp
    obtain ⟨parts, hcovers, hbooks⟩ := inputs_books hfs hprep.normal hprep.claims hprep.members
      (List.Subset.refl paths) hbegin (Reached.refl w₀) hrun
    rw [List.nil_append] at hbooks
    refine ⟨dir, w₀.patterns, _, parts, hprep.directory, hprep.patterns, hall.lastWriter,
      hall.received, hcovers, hbooks.entries, ?_, hbooks.fair, ?_⟩
    · rw [hall.notes, hbooks.told, hstart]
    · intro t ht x hx
      obtain ⟨front, back, hsplit⟩ := List.append_of_mem ht
      exact (hbooks.fair front t back hsplit).mentions hx
  · rcases hdone with h | h
    · simp [he] at h
    · exact absurd (Except.error.inj (he.symm.trans h)) hne

/-- A directory, a file in it that is given once more, and a path that leads out. -/
theorem archive_accounted_overlapping :
    let f := Node.file ⟨0o644, 5, .root⟩ [104]
    let d := Node.directory ⟨0o755, 6, .root⟩ [([102], f)]
    let w := Node.directory ⟨0o755, 7, .root⟩ [([100], d)]
    let fs : FileSystem := ⟨.directory ⟨0o755, 0, .root⟩ [([119], w)], [[119]], 0, .root⟩
    let paths := [Path.ofText "d", .ofText "d/f", .ofText "../d"]
    let told := [Diagnostic.duplicate (Bytes.ofText "d/f"), .outsideDirectory (.ofText "../d")]
    ∃ dir patterns w parts, lastWriter fs false paths .plain = some w
      ∧ w.members.map Member.name = [Bytes.ofText "d", Bytes.ofText "d/f"]
      ∧ (build fs false paths .plain).notes.filterMap Note.diagnostic? = told
      ∧ Accounted fs dir paths patterns false [] parts w.members told := by
  intro f d w fs paths told
  have hproper : fs.root.isProper = true := by decide
  have hdone : (build fs false paths .plain).result = .ok () := ok_of_toBool (by decide +kernel)
  have htold : (build fs false paths .plain).notes.filterMap Note.diagnostic? = told := by
    decide +kernel
  have hnames : (lastWriter fs false paths .plain).map (fun w => w.members.map Member.name)
      = some [Bytes.ofText "d", Bytes.ofText "d/f"] := by decide +kernel
  obtain ⟨dir, patterns, w, parts, -, -, hlast, -, hall⟩ :=
    archive_accounted hproper rfl (.inl hdone)
  rw [htold] at hall
  rw [hlast] at hnames
  exact ⟨dir, patterns, w, parts, hlast, Option.some.inj hnames, htold, hall⟩

end DeployClient.Archive
