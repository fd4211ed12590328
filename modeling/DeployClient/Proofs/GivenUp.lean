import DeployClient.Proofs.Mirrors

/-!
Why a run is given up, and what it leaves behind.

Where every node is seen as it stands, few things end a run: the destination refuses a write, and
then it has taken none; a path cannot be looked at, or a directory cannot be listed; or a file may
not be read. In all but the first case the archive holds what the operations before have written,
and above a file that was given on its own the directories on the way to it.
-/

namespace DeployClient.Archive

open Tar (Member)

variable {fs : FileSystem} {base p : Path} {n : Node} {w w' w'' : Writer}

/-- A destination that fails takes nothing. -/
structure Withheld (w w' : Writer) : Prop where
  sinkFault : w'.sinkFault = w.sinkFault
  members : w.sinkFault ≠ none → w'.members = w.members

/-- The destination has failed, and has taken nothing. -/
def Refused (w : Writer) (e : Error) (w' : Writer) : Prop :=
  ∃ f, w.sinkFault = some f ∧ e = .io f ∧ w'.members = w.members

namespace Withheld

lemma refl (w : Writer) : Withheld w w := ⟨rfl, fun _ => rfl⟩

lemma trans (h : Withheld w w') (h' : Withheld w' w'') : Withheld w w'' where
  sinkFault := h'.sinkFault.trans h.sinkFault
  members := fun hs => (h'.members (h.sinkFault ▸ hs)).trans (h.members hs)

lemma of_grows {cs : List (Bytes × Claimant)} (h : Grows w w' cs []) : Withheld w w' :=
  ⟨h.sinkFault, fun _ => by simpa using h.members⟩

/-- What fails later fails without having written. -/
lemma refused {e : Error} (h : Withheld w w') (h' : Refused w' e w'') : Refused w e w'' := by
  obtain ⟨f, hf, rfl, hm⟩ := h'
  rw [h.sinkFault] at hf
  exact ⟨f, hf, rfl, hm.trans (h.members (by simp [hf]))⟩

end Withheld

/-! ### Writing what can be read -/

lemma put_refused (m : Member) (w : Writer) :
    Ends (put m) w (fun _ w' => Withheld w w') (Refused w) := by
  unfold put
  refine Ends.bind (Q := fun a w' => a = w ∧ w' = w) (Ends.get ⟨rfl, rfl⟩) ?_
  rintro _ _ ⟨rfl, rfl⟩
  next w =>
  split
  · next f hf => exact Ends.throw ⟨f, hf, rfl, rfl⟩
  · next hnone => exact Ends.modify ⟨rfl, fun hs => absurd hnone hs⟩

lemma writeFile_refused {e : Entry} {data : Bytes} (hk : e.kind = .file)
    (hd : Delivers fs e data) (w : Writer) :
    Ends (writeFile fs e n) w (fun _ w' => Withheld w w') (Refused w) := by
  rw [Delivers, if_pos hk] at hd
  obtain ⟨content, hread, hsize, -⟩ := hd
  unfold writeFile
  refine Ends.bind (Q := fun opened w' => w' = w ∧ opened.contents = .ok content)
    (Ends.ofOs (fun opened hopen => ⟨rfl, ?_⟩) fun os hos => ?_) ?_
  · rwa [← read_eq_of_openNode hopen]
  · simp [FileSystem.read, hos] at hread
  · rintro opened _ ⟨rfl, hcontent⟩
    next w =>
    rw [hcontent]
    refine Ends.bind (put_refused _ w) fun _ w' hw' => ?_
    rw [if_neg (by simp [Nat.min_eq_left hsize])]
    exact Ends.pure hw'

lemma write_refused {e : Entry} {data : Bytes} (hd : Delivers fs e data) (n : Node) (w : Writer) :
    Ends (write fs e n) w (fun _ w' => Withheld w w') (Refused w) := by
  have htold : ∀ told w', Withheld w w' →
      Ends (event told) w' (fun _ w' => Withheld w w') (Refused w) :=
    fun told w' h => Ends.modify (h.trans (.of_grows (Grows.note _ w')))
  unfold write
  rcases hk : e.kind with _ | _ | _
  · exact Ends.bind (writeFile_refused hk hd w) fun _ => htold _
  · exact Ends.bind (put_refused _ w) fun _ => htold _
  · exact Ends.bind (put_refused _ w) fun _ => htold _

/-! ### Adding what is seen -/

/-- A node that is seen is accepted or passed over. -/
lemma Sighted.accept_ends (hp : Sighted fs base p n) (implied : Bool) (w : Writer) :
    Ends (accept fs p base n implied) w (fun r w' => Accepts fs p base n w w' r)
      fun _ _ => False := by
  refine (Archive.accept_ends fs p base n implied w).mono (fun _ _ h => h) ?_
  rintro e w' ⟨-, -, hout | ⟨kind, os, hk, hos⟩⟩
  · exact hp.not_outside hout
  · obtain ⟨t, ht⟩ := exists_target_of_lstat hp.lstat hk
    simp [ht] at hos

lemma Sighted.exists_delivers {patterns : Ignore.Patterns} {filesOnly : Bool} {e : Entry}
    (hp : Sighted fs base p n) (hn : ¬ Locked fs n) (hsource : e.source = p)
    (he : EntryOf patterns filesOnly fs base n e) : ∃ data, Delivers fs e data :=
  Archive.exists_delivers (hsource ▸ readable_of_lstat hp.lstat hn) he

lemma addPath_refused (hp : Sighted fs base p n) (hn : ¬ Locked fs n) (implied : Bool)
    (w : Writer) :
    Ends (addPath fs p base n implied) w (fun _ w' => Withheld w w') (Refused w) := by
  unfold addPath
  refine Ends.bind ((hp.accept_ends implied w).mono (fun _ _ h => h) fun _ _ => False.elim) ?_
  intro r w' hr
  cases hr with
  | skipped grows held => exact Ends.pure (.of_grows grows)
  | base who grows named => exact Ends.pure (.of_grows grows)
  | entry e grows hsource entryOf =>
    obtain ⟨data, hd⟩ := hp.exists_delivers hn hsource entryOf
    have hw' := Withheld.of_grows grows
    refine Ends.bind ((write_refused hd n w').mono (fun _ _ h => h) fun _ _ => hw'.refused) ?_
    exact fun _ w'' h => Ends.pure (hw'.trans h)

lemma addParents_refused {parents : List Path}
    (h : ∀ q ∈ parents, ∃ k, Sighted fs base q k) (w : Writer) :
    Ends (addParents fs base parents) w (fun _ w' => Withheld w w') (Refused w) := by
  refine (addParents_rule
    (I := fun ps w' => Withheld w w' ∧ ∀ q ∈ ps, ∃ k, Sighted fs base q k) ?_ ?_ ?_
    ⟨Withheld.refl w, h⟩).mono (fun _ _ h => h.1) fun _ _ h => h
  · rintro q ps w' ⟨hw', hps⟩ os hos
    obtain ⟨k, hq⟩ := hps q List.mem_cons_self
    simp [hq.lstat] at hos
  · rintro q ps w' node ⟨hw', hps⟩ hnode hdir
    obtain ⟨k, hq⟩ := hps q List.mem_cons_self
    obtain rfl : node = k := Except.ok.inj (hnode.symm.trans hq.lstat)
    exact (addPath_refused hq (not_locked_of_isDirectory hdir) true w').mono
      (fun _ _ h => ⟨hw'.trans h, fun q' hq' => hps q' (List.mem_cons_of_mem _ hq')⟩)
      fun _ _ => hw'.refused
  · rintro q ps w' node ⟨hw', hps⟩ - -
    exact ⟨hw', fun q' hq' => hps q' (List.mem_cons_of_mem _ hq')⟩

/-- The directories above a file are seen. -/
lemma Sighted.exists_of_above (hp : Sighted fs base p n) (filesOnly : Bool) :
    ∀ q ∈ (if filesOnly then [] else parentsBelow p base), ∃ k, Sighted fs base q k := by
  intro q hq
  split at hq
  · simp at hq
  · obtain ⟨k, hk⟩ := FileSystem.lstat_parent hp.normal
      (mem_parents_of_mem_parentsBelow hq).1 hp.lstat
    exact ⟨k, hp.of_mem_parentsBelow hq hk⟩

lemma addFile_refused (hp : Sighted fs base p n) (hn : ¬ Locked fs n) (w : Writer) :
    Ends (addFile fs p base n) w (fun _ w' => Withheld w w') (Refused w) := by
  unfold addFile
  refine Ends.bind ((hp.accept_ends false w).mono (fun _ _ h => h) fun _ _ => False.elim) ?_
  intro r w' hr
  cases hr with
  | skipped grows held => exact Ends.pure (.of_grows grows)
  | base who grows named => exact Ends.pure (.of_grows grows)
  | entry e grows hsource entryOf =>
    obtain ⟨data, hd⟩ := hp.exists_delivers hn hsource entryOf
    have hw' := Withheld.of_grows grows
    refine Ends.bind (Q := fun a w'' => a = w' ∧ w'' = w') (Ends.get ⟨rfl, rfl⟩) ?_
    rintro _ _ ⟨rfl, rfl⟩
    next w' =>
    refine Ends.bind ((addParents_refused (hp.exists_of_above w'.filesOnly) w').mono
      (fun _ _ h => h) fun _ _ => hw'.refused) ?_
    intro added w'' hw''
    have hboth := hw'.trans hw''
    refine Ends.bind ((write_refused hd n w'').mono (fun _ _ h => h) fun _ _ => hboth.refused) ?_
    exact fun _ w''' h => Ends.pure (hboth.trans h)

/-! ### Files that may not be read -/

/-- An operation ends the run: it stands for a failure, or it comes to a file that is let in and may
not be read. The directories above a file that was given on its own have been added. -/
inductive Stops (fs : FileSystem) (base : Path) (w : Writer) : Op → Error → Writer → Prop
  | fail (e : Error) : Stops fs base w (.fail e) e w
  | path {p : Path} {n : Node} {path : Bytes} {kind : Kind} (locked : Locked fs n)
      (admits : Admits w base p n path kind) :
      Stops fs base w (.path fs p base n) .locked (claimedBy w p path kind)
  | file {p : Path} {n : Node} {path : Bytes} {kind : Kind} {w' : Writer} {k : ℕ}
      (locked : Locked fs n) (admits : Admits w base p n path kind)
      (parents : addParents fs base (if w.filesOnly then [] else parentsBelow p base)
        (claimedBy w p path kind) = .ok k w') :
      Stops fs base w (.file fs p base n) .locked w'

lemma path_ends (hp : Sighted fs base p n) (w : Writer) :
    Ends (addPath fs p base n false) w (fun _ w' => Withheld w w')
      fun e w' => Refused w e w' ∨ Stops fs base w (.path fs p base n) e w' := by
  by_cases hn : Locked fs n
  · rcases hp.admitted_or_passed false w with ⟨path, kind, h⟩ | ⟨cs, w', haccept, hg, -⟩
    · rw [Ends, h.addPath_locked hp.lstat hn]
      exact .inr (.path hn h)
    · rw [Ends, addPath_of_accept haccept]
      exact .of_grows hg
  · exact (addPath_refused hp hn false w).mono (fun _ _ h => h) fun _ _ => .inl

lemma file_ends (hp : Sighted fs base p n) (w : Writer) :
    Ends (addFile fs p base n) w (fun _ w' => Withheld w w')
      fun e w' => Refused w e w' ∨ Stops fs base w (.file fs p base n) e w' := by
  by_cases hn : Locked fs n
  · rcases hp.admitted_or_passed false w with ⟨path, kind, h⟩ | ⟨cs, w', haccept, hg, -⟩
    · have hends := addParents_refused (hp.exists_of_above w.filesOnly) (claimedBy w p path kind)
      rcases hparents : addParents fs base (if w.filesOnly then [] else parentsBelow p base)
        (claimedBy w p path kind) with ⟨k, w'⟩ | ⟨e, w'⟩
      · rw [Ends, h.addFile_locked hp.lstat hn hparents]
        exact .inr (.file hn h hparents)
      · have hfile : addFile fs p base n w = .error e w' := by
          rw [h.addFile_eq (t := []) (by rw [h.kind_of_locked hn]; rfl), bind_of_error hparents]
        rw [Ends, hfile]
        exact .inl ((Withheld.of_grows h.grows).refused (hends.of_error hparents))
    · rw [Ends, addFile_of_accept haccept]
      exact .of_grows hg
  · exact (addFile_refused hp hn w).mono (fun _ _ h => h) fun _ _ => .inl

/-- Where a file that was let in may not be read, the directories above it have been written. -/
lemma Admits.parents_grow {path : Bytes} {kind : Kind} {k : ℕ}
    (h : Admits w base p n path kind) (hparents : addParents fs base
      (if w.filesOnly then [] else parentsBelow p base) (claimedBy w p path kind) = .ok k w') :
    ∃ cs, ∃ rs : List Record, Grows w w' cs (rs.map Record.member)
      ∧ ∀ r ∈ rs, r.claim ∈ cs ∧ r.Made w.patterns w.filesOnly fs base ∧ Implied fs base p r := by
  have hclaim := h.grows
  obtain ⟨rs, hlogs, -, hrs⟩ := (addParents_ends fs base _ _).of_ok hparents
  rw [hclaim.patterns, hclaim.filesOnly] at hlogs
  obtain ⟨cs, hg, hperm⟩ := hlogs.grows
  refine ⟨_, rs, hclaim.trans hg, fun r hr => ⟨?_, hlogs.made r hr, ?_⟩⟩
  · have hkept := hperm.mem_iff.mpr (List.mem_map.mpr ⟨r, hr, rfl⟩)
    exact List.mem_append_right _ (List.mem_of_mem_filter hkept)
  · obtain ⟨hmem, hl, hdir⟩ := hrs r hr
    refine ⟨?_, hl, hdir⟩
    split at hmem
    · simp at hmem
    · exact hmem

/-- What an operation that ends the run has left. -/
lemma Stops.exists_grows {op : Op} {e : Error} (h : Stops fs base w op e w') :
    ∃ cs, ∃ rs : List Record, Grows w w' cs (rs.map Record.member)
      ∧ ∀ r ∈ rs, r.claim ∈ cs ∧ r.WrittenBy w.patterns w.filesOnly op := by
  cases h with
  | fail e => exact ⟨[], [], .refl w, by simp⟩
  | path locked admits => exact ⟨_, [], admits.grows, by simp⟩
  | @file p n path kind w' k locked admits parents =>
    obtain ⟨cs, rs, hg, hrs⟩ := admits.parents_grow parents
    have hentry : EntryOf w.patterns w.filesOnly fs base n (entryAs w p n path kind []) :=
      admits.entryOf (by rw [admits.kind_of_locked locked]; rfl)
    refine ⟨cs, rs, hg, fun r hr => ?_⟩
    obtain ⟨hclaim, hmade, himplied⟩ := hrs r hr
    exact ⟨hclaim, hmade, .inr ⟨himplied, _, rfl, hentry⟩⟩

/-! ### Runs -/

section

variable {dir : Path} {inputs : List Path} {op : Op} {ops : List Op}

lemma run_refused (hop : Called fs dir inputs op) (w : Writer) :
    Ends op.run w (fun _ w' => Withheld w w')
      fun e w' => Refused w e w' ∨ Stops fs (baseOf fs dir inputs) w op e w' := by
  cases hop with
  | path sighted candidate => exact path_ends sighted w
  | file sighted given hn => exact file_ends sighted w
  | report d =>
    exact Ends.bind (Q := fun _ w' => Withheld w w')
      (Ends.modify (.of_grows (Grows.tell d w))) fun _ _ h => Ends.pure h
  | event e =>
    exact Ends.bind (Q := fun _ w' => Withheld w w')
      (Ends.modify (.of_grows (Grows.note _ w))) fun _ _ h => Ends.pure h
  | fail he => exact Ends.throw (.inr (.fail _))

/-- **A run is given up at one of its operations**, with what was written before, or by the
destination, with nothing written. -/
theorem runAll_given_up (hops : ∀ op ∈ ops, Called fs dir inputs op) (w : Writer) :
    Ends (runAll ops) w (fun _ w' => Withheld w w')
      fun e w' => Refused w e w' ∨ ∃ before op after k v, ops = before ++ op :: after
        ∧ runAll before w = .ok k v ∧ Stops fs (baseOf fs dir inputs) v op e w' := by
  induction ops generalizing w with
  | nil => exact Ends.pure (Withheld.refl w)
  | cons op ops ih =>
    refine Ends.bind ((run_refused (hops op List.mem_cons_self) w).with_run.mono
      (fun _ _ h => h) ?_) ?_
    · rintro e w' ⟨hrefused | hstops, -⟩
      · exact .inl hrefused
      · exact .inr ⟨[], op, ops, 0, w, rfl, rfl, hstops⟩
    · rintro a w' ⟨hw', hrun⟩
      have hrest := ih (fun o ho => hops o (List.mem_cons_of_mem _ ho)) w'
      refine Ends.bind (hrest.mono (fun _ _ h => h) ?_) fun b w'' hw'' =>
        Ends.pure (hw'.trans hw'')
      rintro e w'' (hrefused | ⟨before, o, after, k, v, rfl, hbefore, hstops⟩)
      · exact .inl (hw'.refused hrefused)
      · exact .inr ⟨op :: before, o, after, a + k, v, rfl, runAll_cons_ok hrun hbefore, hstops⟩

/-- Errors from looking at a path, from reading and from the destination. -/
inductive Error.Abort : Error → Prop
  | io (error : IoError) : Abort (.io error)
  | walk (error : WalkError) : Abort (.walk error)

lemma fail_mem_inputOps {single : Bool} {q : Path} {e : Error}
    (h : .fail e ∈ inputOps fs dir single q) : e.Abort := by
  unfold inputOps at h
  split at h
  · simp at h
  · split at h
    · exact Op.fail.inj (List.mem_singleton.mp h) ▸ .io _
    · split at h
      · have hwalk := (List.mem_cons.mp h).resolve_left (by simp)
        unfold walkOps at hwalk
        split at hwalk
        · exact Op.fail.inj (List.mem_singleton.mp hwalk) ▸ .walk _
        · obtain ⟨v, -, hv⟩ := List.mem_flatMap.mp hwalk
          rcases mem_visitOps.mp hv with hv | ⟨hv, -⟩
          · unfold visitOp at hv
            split at hv
            · exact Op.fail.inj hv ▸ .walk _
            · simp at hv
          · exact Op.fail.inj hv ▸ .walk _
      · simp at h

lemma archiveInputs_given_up (hfs : fs.root.isProper = true) (hdir : dir.IsNormal) {e : Error}
    (h : archiveInputs fs dir (inputs.length = 1) inputs w = .error e w') : e.Abort := by
  rw [archiveInputs_eq_runAll] at h
  rcases (runAll_given_up (fun op hop => called_of_mem hfs hdir hop) w).of_error h with
    ⟨f, -, rfl, -⟩ | ⟨before, op, after, k, v, hops, -, hstops⟩
  · exact .io f
  · cases hstops with
    | fail e =>
      have hfail : .fail e ∈ buildOps fs dir inputs := by
        rw [hops]
        simp
      obtain ⟨input, -, hinput⟩ := List.mem_flatMap.mp hfail
      exact fail_mem_inputOps hinput
    | path locked admits => exact .io _
    | file locked admits parents => exact .io _

/-! ### Archives -/

variable {filesOnly : Bool} {options : Options} {v : Writer} {e : Error}

/-- Closing an archive changes nothing in it. -/
lemma finish_ends (k : ℕ) (w : Writer) :
    Ends (finish k) w (fun _ w' => w'.members = w.members ∧ w'.claims = w.claims)
      fun e w' => (w'.members = w.members ∧ w'.claims = w.claims)
        ∧ (e = .nothingArchived ∨ e.Abort) := by
  rw [Ends, finish_eq]
  rcases w.sinkFault with _ | io
  · by_cases hk : k = 0
    · rw [if_pos hk]
      exact ⟨⟨rfl, rfl⟩, .inl rfl⟩
    · rw [if_neg hk]
      exact ⟨rfl, rfl⟩
  · exact ⟨⟨rfl, rfl⟩, .inr (.io io)⟩

/-- The entry was written by one of the operations, and its name is claimed for it. -/
def Recorded (ops : List Op) (w v : Writer) (m : Member) : Prop :=
  ∃ r : Record, r.member = m ∧ r.claim ∈ v.claims.taken
    ∧ ∃ op ∈ ops, r.WrittenBy w.patterns w.filesOnly op

lemma Accounts.recorded {rs : List Record} {k : ℕ} (h : Accounts ops w w' k rs) :
    ∀ m ∈ w'.members, Recorded ops w w' m := by
  intro m hm
  rw [h.entries] at hm
  obtain ⟨r, hr, rfl⟩ := List.mem_map.mp hm
  have hclaim := h.claims.mem_iff.mpr (List.mem_map.mpr ⟨r, hr, rfl⟩)
  exact ⟨r, rfl, List.mem_of_mem_filter hclaim, h.origin r hr⟩

/-- What a run has left that was given up at one of its operations. -/
lemma Stops.recorded {rs : List Record} {before after : List Op} {k : ℕ}
    (hrs : Accounts before w w' k rs) (h : Stops fs base w' op e v) :
    ∀ m ∈ v.members, Recorded (before ++ op :: after) w v m := by
  intro m hm
  obtain ⟨cs, ss, hg, hss⟩ := h.exists_grows
  rw [hg.members] at hm
  rcases List.mem_append.mp hm with hm | hm
  · obtain ⟨r, rfl, hclaim, o, ho, hby⟩ := hrs.recorded m hm
    exact ⟨r, rfl, hg.claims ▸ List.mem_append_left _ hclaim, o, List.mem_append_left _ ho, hby⟩
  · obtain ⟨r, hr, rfl⟩ := List.mem_map.mp hm
    obtain ⟨hclaim, hby⟩ := hss r hr
    rw [hrs.patterns, hrs.filesOnly] at hby
    exact ⟨r, rfl, hg.claims ▸ List.mem_append_right _ hclaim, op, by simp, hby⟩

/-- What an archive holds, also one that was given up, its operations have written. -/
lemma recorded_of_lastWriter (hfs : fs.root.isProper = true)
    (h : lastWriter fs filesOnly inputs options = some v) :
    ∃ dir w, prepare fs filesOnly inputs options = .ok (dir, w)
      ∧ ∀ m ∈ v.members, Recorded (buildOps fs dir inputs) w v m := by
  unfold lastWriter at h
  rcases hprep : prepare fs filesOnly inputs options with ⟨e, notes⟩ | ⟨dir, w⟩
  · simp [hprep] at h
  · simp only [hprep] at h
    have hw := prepared_of_prepare hprep
    refine ⟨dir, w, rfl, ?_⟩
    rcases hrun : archiveInputs fs dir (inputs.length = 1) inputs w with ⟨k, w'⟩ | ⟨e, w'⟩
    · have hv : v.members = w'.members ∧ v.claims = w'.claims := by
        rw [archiveAll_of_ok hrun] at h
        split at h
        · next hfinish =>
          obtain rfl := Option.some.inj h
          exact (finish_ends k w').of_ok hfinish
        · next hfinish =>
          obtain rfl := Option.some.inj h
          exact ((finish_ends k w').of_error hfinish).1
      rw [archiveInputs_eq_runAll] at hrun
      obtain ⟨rs, hrs⟩ := exists_accounts hw.claims hw.members hrun
      unfold Recorded
      rw [hv.1, hv.2]
      exact hrs.recorded
    · rw [archiveAll_of_error hrun] at h
      obtain rfl := Option.some.inj h
      rw [archiveInputs_eq_runAll] at hrun
      rcases (runAll_given_up (fun op hop => called_of_mem hfs hw.normal hop) w).of_error hrun with
        ⟨f, -, -, hm⟩ | ⟨before, op, after, k, u, hops, hbefore, hstops⟩
      · simp [hm, hw.members]
      · obtain ⟨rs, hrs⟩ := exists_accounts hw.claims hw.members hbefore
        rw [hops]
        exact hstops.recorded hrs

/-- How an archive that was begun fails. -/
lemma error_of_archiveAll (hfs : fs.root.isProper = true) (hdir : dir.IsNormal)
    (h : archiveAll fs dir inputs w = .error e w') : e = .nothingArchived ∨ e.Abort := by
  rcases hrun : archiveInputs fs dir (inputs.length = 1) inputs w with ⟨k, w₁⟩ | ⟨e', w₁⟩
  · rw [archiveAll_of_ok hrun] at h
    exact ((finish_ends k w₁).of_error h).2
  · rw [archiveAll_of_error hrun] at h
    obtain ⟨rfl, rfl⟩ := EStateM.Result.error.inj h
    exact .inr (archiveInputs_given_up hfs hdir hrun)

/-- How building fails. -/
lemma error_of_build (hfs : fs.root.isProper = true)
    (h : (build fs filesOnly inputs options).result = .error e) :
    e.Early ∨ e = .nothingArchived ∨ e.Abort := by
  unfold build at h
  rcases hprep : prepare fs filesOnly inputs options with ⟨e', notes⟩ | ⟨dir, w⟩
  · simp only [hprep] at h
    obtain rfl := Except.error.inj h
    exact .inl (prepare_error hprep)
  · simp only [hprep] at h
    rcases hall : archiveAll fs dir inputs w with ⟨k, w'⟩ | ⟨e', w'⟩
    · simp [hall] at h
    · simp only [hall] at h
      obtain rfl := Except.error.inj h
      exact .inr (error_of_archiveAll hfs (prepared_of_prepare hprep).normal hall)

/-- The entries of an archive, complete or not. -/
def entriesOf (fs : FileSystem) (filesOnly : Bool) (inputs : List Path) (options : Options) :
    List Member :=
  (lastWriter fs filesOnly inputs options).elim [] (·.members)

lemma Completed.entriesOf_eq (h : Completed fs filesOnly inputs options dir w a w') :
    entriesOf fs filesOnly inputs options = w'.members := by
  rw [entriesOf, h.lastWriter]
  rfl

/-- An I/O error has ended the run. -/
def Outcome.Aborted (o : Outcome) : Prop := ∃ e, o.result = .error e ∧ e.Abort

lemma not_aborted_of_ok (h : (build fs filesOnly inputs options).result = .ok ()) :
    ¬ (build fs filesOnly inputs options).Aborted := by
  rintro ⟨e, he, -⟩
  simp [h] at he

lemma not_aborted_of_empty
    (h : (build fs filesOnly inputs options).result = .error .nothingArchived) :
    ¬ (build fs filesOnly inputs options).Aborted := by
  rintro ⟨e, he, habort⟩
  obtain rfl := Except.error.inj (h.symm.trans he)
  cases habort

/-- A run that was begun is completed, if no I/O error has ended it. -/
lemma completed_of_not_aborted (hfs : fs.root.isProper = true)
    (hprep : prepare fs filesOnly inputs options = .ok (dir, w))
    (h : ¬ (build fs filesOnly inputs options).Aborted) :
    ∃ k w', Completed fs filesOnly inputs options dir w k w' := by
  rcases hrun : archiveInputs fs dir (inputs.length = 1) inputs w with ⟨k, w'⟩ | ⟨e, w'⟩
  · rcases hsink : w'.sinkFault with _ | f
    · exact ⟨k, w', hprep, hrun, hsink⟩
    · refine absurd ⟨.io f, ?_, .io f⟩ h
      simp [build, hprep, archiveAll_of_ok hrun, finish_eq, hsink]
  · refine absurd ⟨e, ?_, archiveInputs_given_up hfs (prepared_of_prepare hprep).normal hrun⟩ h
    simp [build, hprep, archiveAll_of_error hrun]

end

end DeployClient.Archive
