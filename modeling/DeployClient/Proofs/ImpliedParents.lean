import DeployClient.Proofs.Admission
import DeployClient.Proofs.Ancestors
import DeployClient.Proofs.Interruption

/-!
The directories that a file given on its own brings along.

Every name that is held is that of a node that is seen, with its kind. So a directory on the way
to the file has its entry already, or a pattern leaves it out, or it gets its entry now, and what
one of them gets does not change what the others lack.
-/

namespace DeployClient.Archive

open Tar (Member)

variable {fs : FileSystem} {base dir p q : Path} {n d : Node} {name : Bytes} {m : Member}
  {patterns : Ignore.Patterns} {taken taken' : List Bytes} {kind : Kind} {w v w' : Writer}
  {qs inputs before after : List Path} {k l : ℕ}

/-! ### What is told -/

/-- What has been told to the user. -/
def Writer.diagnostics (w : Writer) : List Diagnostic := w.notes.filterMap Note.diagnostic?

lemma diagnostics_event (e : Event) (w : Writer) :
    (w.note (.event e)).diagnostics = w.diagnostics := by
  simp [Writer.diagnostics, Writer.note, Note.diagnostic?]

lemma diagnostics_tell (x : Diagnostic) (w : Writer) :
    (w.tell x).diagnostics = w.diagnostics ++ if w.mute then [] else [x] := by
  unfold Writer.tell
  split
  · rw [List.append_nil]
  · simp [Writer.diagnostics, Writer.note, Note.diagnostic?]

/-! ### Directories on the way -/

/-- The entry of a directory that no pattern leaves out, if its name is not taken. -/
def lacking (fs : FileSystem) (base : Path) (patterns : Ignore.Patterns) (taken : List Bytes)
    (q : Path) : Option Member :=
  match fs.lstat q, Path.nameBelow base q with
  | .ok d, .named name =>
    if d.isDirectory = true ∧ patterns.isIgnored name true = false ∧ name ∉ taken then
      memberAs name d
    else none
  | _, _ => none

/-- What is told of a directory that a pattern leaves out. -/
def leftOut (fs : FileSystem) (base : Path) (patterns : Ignore.Patterns) (q : Path) :
    Option Diagnostic :=
  match fs.lstat q, Path.nameBelow base q with
  | .ok d, .named name =>
    if d.isDirectory = true ∧ patterns.isIgnored name true = true then some (.ignored name)
    else none
  | _, _ => none

lemma Placed.lacking_eq (h : Placed fs base q d name) (patterns : Ignore.Patterns)
    (taken : List Bytes) : lacking fs base patterns taken q
      = if d.isDirectory = true ∧ patterns.isIgnored name true = false ∧ name ∉ taken then
          memberAs name d
        else none := by
  simp only [lacking, h.sighted.lstat, h.named]

lemma Placed.leftOut_eq (h : Placed fs base q d name) (patterns : Ignore.Patterns) :
    leftOut fs base patterns q
      = if d.isDirectory = true ∧ patterns.isIgnored name true = true then some (.ignored name)
        else none := by
  simp only [leftOut, h.sighted.lstat, h.named]

lemma Placed.name_of_lacking (h : Placed fs base q d name)
    (hm : lacking fs base patterns taken q = some m) : m.name = name := by
  rw [h.lacking_eq] at hm
  split at hm
  · exact name_of_memberAs hm
  · simp at hm

/-- Only its own name matters to a directory. -/
lemma Placed.lacking_congr (h : Placed fs base q d name) (htaken : name ∈ taken ↔ name ∈ taken') :
    lacking fs base patterns taken q = lacking fs base patterns taken' q := by
  simp only [h.lacking_eq, htaken]

lemma ofNode?_of_isDirectory (h : d.isDirectory = true) : Kind.ofNode? d = some .directory := by
  cases d with
  | directory stamp entries => rfl
  | _ => simp [Node.isDirectory] at h

/-! ### Names that are held -/

/-- Every name that is held is that of a node that is seen, with its kind. -/
structure Truthful (fs : FileSystem) (base : Path) (w : Writer) : Prop where
  full : w.filesOnly = false
  held : ∀ c ∈ w.claims.taken, c.1 ≠ baseName →
    ∃ n, Placed fs base c.2.source n c.1 ∧ Kind.ofNode? n = some c.2.kind

namespace Truthful

lemma of_grows {ms : List Member} (h : Truthful fs base w) (hg : Grows w w' [] ms) :
    Truthful fs base w' where
  full := hg.filesOnly.trans h.full
  held := by
    rw [hg.claims, List.append_nil]
    exact h.held

lemma claim (h : Truthful fs base w) (hp : Placed fs base p n name)
    (hkind : Kind.ofNode? n = some kind) (hfree : name ∉ w.claims.names) :
    Truthful fs base (w.claim name ⟨kind, p⟩) where
  full := h.full
  held := by
    intro c hc hne
    rw [(Grows.claim _ (Claims.holder?_eq_none_iff.mpr hfree)).claims] at hc
    rcases List.mem_append.mp hc with hc | hc
    · exact h.held c hc hne
    · obtain rfl := List.mem_singleton.mp hc
      exact ⟨n, hp, hkind⟩

/-- The name of a directory is held by a directory. -/
lemma kind_of_holder {first : Claimant} (h : Truthful fs base w) (hq : Placed fs base q d name)
    (hdir : d.isDirectory = true) (hfirst : w.claims.holder? name = some first) :
    first.kind = .directory := by
  obtain ⟨k, hk, hkind⟩ := h.held _ (Claims.mem_taken_of_holder? hfirst) hq.notBase
  have hsource := hk.eq_of_name hq
  simp only at hk hkind hsource
  obtain ⟨rfl, -⟩ := hq.unique (hsource ▸ hk)
  rw [ofNode?_of_isDirectory hdir] at hkind
  exact (Option.some.inj hkind).symm

end Truthful

/-- Operations of a run leave names held as they should be. -/
lemma Accounts.truthful {ops : List Op} {rs : List Record}
    (hops : ∀ op ∈ ops, Called fs dir inputs op) (hfull : w.filesOnly = false)
    (h : Accounts ops w w' k rs) : Truthful fs (baseOf fs dir inputs) w' where
  full := h.filesOnly.trans hfull
  held := by
    intro c hc hne
    have hkept : c ∈ w'.claims.taken.filter fun c => c.1 ≠ baseName :=
      List.mem_filter.mpr ⟨hc, by simpa using hne⟩
    obtain ⟨r, hr, rfl⟩ := List.mem_map.mp (h.claims.mem_iff.mp hkept)
    obtain ⟨hsighted, hwanted, -⟩ := h.origin_wanted hops hfull hr
    exact ⟨r.node, ⟨hsighted, hwanted.named, hne⟩, kind_of_memberAs hwanted.member⟩

/-! ### One directory -/

/-- What passes and has a free name is let in. -/
lemma Placed.admits (hp : Placed fs base p n name) (hfull : w.filesOnly = false)
    (hpass : Passes w.patterns w.filesOnly base p n name kind) (hfree : name ∉ w.claims.names) :
    Admits w base p n name kind where
  passes := hpass
  notBase := by
    rw [nameIn_of_full hfull]
    exact hp.notBase
  free := by
    rw [nameIn_of_full hfull]
    exact hfree

lemma claimedBy_of_full (hfull : w.filesOnly = false) (p : Path) (name : Bytes) (kind : Kind) :
    claimedBy w p name kind = w.claim name ⟨kind, p⟩ := by
  rw [claimedBy, nameIn_of_full hfull]

/-- A node that is seen and let in is written as it stands. -/
lemma Admits.exists_write (h : Admits w base p n name kind) (hl : fs.lstat p = .ok n)
    (hn : ¬ Locked fs n) :
    ∃ t m, targetOf fs kind p = .ok t ∧ memberAs (nameIn w.filesOnly name) n = some m
      ∧ ∀ v : Writer, v.sinkFault = none → ∃ e, write fs (entryAs w p n name kind t) n v
        = .ok () ((v.append m).note (.event e)) := by
  have hread : Readable fs p n := readable_of_lstat hl hn
  obtain ⟨t, ht⟩ := hread.target kind h.passes.ofNode
  have he := h.entryOf ht
  obtain ⟨data, hd⟩ := exists_delivers hread he
  have hmade : Record.Made w.patterns w.filesOnly fs base ⟨entryAs w p n name kind t, n, data⟩ :=
    ⟨he, hd⟩
  exact ⟨t, _, ht, hmade.memberAs hl, fun v hsink => ⟨_, write_delivered hsink n hd⟩⟩

/-- What the directories on the way come to: each that lacks an entry gets it, and of those that
patterns leave out it is told. -/
structure Fills (fs : FileSystem) (base : Path) (qs : List Path) (w : Writer) (k : ℕ)
    (w' : Writer) : Prop where
  count : k = (qs.filterMap (lacking fs base w.patterns w.claims.names)).length
  grows : ∃ cs, Grows w w' cs (qs.filterMap (lacking fs base w.patterns w.claims.names))
    ∧ cs.map Prod.fst
      = (qs.filterMap (lacking fs base w.patterns w.claims.names)).map Member.name
  told : w'.diagnostics
    = w.diagnostics ++ if w.mute then [] else qs.filterMap (leftOut fs base w.patterns)
  truthful : Truthful fs base w'

namespace Fills

lemma nil (h : Truthful fs base w) : Fills fs base [] w 0 w :=
  ⟨rfl, ⟨[], Grows.refl w, rfl⟩, by simp, h⟩

/-- Where nothing is lacking, nothing is written. -/
lemma told_only (h : Truthful fs base w) (hg : Grows w w' [] [])
    (hlacks : lacking fs base w.patterns w.claims.names q = none)
    (htold : w'.diagnostics
      = w.diagnostics ++ if w.mute then [] else [q].filterMap (leftOut fs base w.patterns)) :
    Fills fs base [q] w 0 w' := by
  refine ⟨?_, ⟨[], ?_, ?_⟩, htold, h.of_grows hg⟩ <;> rw [List.filterMap_cons_none hlacks]
  · rfl
  · exact hg
  · rfl

/-- Of a node that no pattern leaves out, and that lacks nothing, nothing is told either. -/
lemma pass (h : Truthful fs base w)
    (hlacks : lacking fs base w.patterns w.claims.names q = none)
    (hleft : leftOut fs base w.patterns q = none) : Fills fs base [q] w 0 w := by
  refine told_only h (Grows.refl w) hlacks ?_
  rw [List.filterMap_cons_none hleft]
  simp

/-- What is lacking claims its name and is written. -/
lemma write (h : Truthful fs base w) (hq : Placed fs base q d name)
    (hkind : Kind.ofNode? d = some .directory) (hfree : name ∉ w.claims.names)
    (hlacks : lacking fs base w.patterns w.claims.names q = some m)
    (hleft : leftOut fs base w.patterns q = none) (e : Event) :
    Fills fs base [q] w 1 (((w.claim name ⟨.directory, q⟩).append m).note (.event e)) := by
  have hclaim : Grows w (w.claim name ⟨.directory, q⟩) [(name, ⟨.directory, q⟩)] [] :=
    Grows.claim _ (Claims.holder?_eq_none_iff.mpr hfree)
  have hwrite := (Grows.append m (w.claim name ⟨.directory, q⟩)).trans (Grows.note (.event e) _)
  refine ⟨?_, ⟨[(name, ⟨.directory, q⟩)], ?_, ?_⟩, ?_, (h.claim hq hkind hfree).of_grows hwrite⟩
  · rw [List.filterMap_cons_some hlacks]
    rfl
  · rw [List.filterMap_cons_some hlacks]
    exact hclaim.trans hwrite
  · rw [List.filterMap_cons_some hlacks, ← hq.name_of_lacking hlacks]
    rfl
  · rw [List.filterMap_cons_none hleft, diagnostics_event]
    simp [Writer.diagnostics, Writer.claim, Writer.append]

/-- What a directory gets does not change what the others lack. -/
lemma lacking_eq (h : Fills fs base [q] w k v) (hq : Placed fs base q d name) {q' : Path}
    {d' : Node} {name' : Bytes} (hq' : Placed fs base q' d' name') (hne : q ≠ q') :
    lacking fs base v.patterns v.claims.names q'
      = lacking fs base w.patterns w.claims.names q' := by
  obtain ⟨cs, hg, hcs⟩ := h.grows
  rw [hg.patterns]
  refine hq'.lacking_congr ?_
  have hother : name' ∉ cs.map Prod.fst := by
    rw [hcs]
    intro hmem
    obtain ⟨m, hm, rfl⟩ := List.mem_map.mp hmem
    obtain ⟨x, hx, hlacks⟩ := List.mem_filterMap.mp hm
    rw [List.mem_singleton.mp hx] at hlacks
    exact hne (hq.eq_of_name (hq.name_of_lacking hlacks ▸ hq'))
  rw [Claims.names, hg.claims, List.map_append, List.mem_append, or_iff_left hother]
  rfl

lemma cons (h : Fills fs base [q] w k v) (hq : Placed fs base q d name)
    (hqs : ∀ q' ∈ qs, ∃ d' name', Placed fs base q' d' name') (hne : q ∉ qs)
    (h' : Fills fs base qs v l w') : Fills fs base (q :: qs) w (k + l) w' := by
  have hrest : qs.filterMap (lacking fs base v.patterns v.claims.names)
      = qs.filterMap (lacking fs base w.patterns w.claims.names) := by
    refine List.filterMap_congr fun q' hq' => ?_
    obtain ⟨d', name', hplaced⟩ := hqs q' hq'
    exact h.lacking_eq hq hplaced fun he => hne (he ▸ hq')
  have hall : (q :: qs).filterMap (lacking fs base w.patterns w.claims.names)
      = [q].filterMap (lacking fs base w.patterns w.claims.names)
        ++ qs.filterMap (lacking fs base w.patterns w.claims.names) := by
    rw [← List.filterMap_append, List.singleton_append]
  obtain ⟨cs, hg, hcs⟩ := h.grows
  obtain ⟨cs', hg', hcs'⟩ := h'.grows
  rw [hrest] at hg' hcs'
  refine ⟨?_, ⟨cs ++ cs', ?_, ?_⟩, ?_, h'.truthful⟩
  · rw [h.count, h'.count, hrest, hall, List.length_append]
  · rw [hall]
    exact hg.trans hg'
  · rw [hall, List.map_append, List.map_append, hcs, hcs']
  · rw [h'.told, h.told, hg.mute, hg.patterns, List.append_assoc]
    split
    · simp
    · rw [← List.filterMap_append, List.singleton_append]

end Fills

/-- **One directory on the way**: a pattern leaves it out, or it has its entry, or it gets it. -/
theorem addPath_fills (hw : Truthful fs base w) (hsink : w.sinkFault = none)
    (hq : Placed fs base q d name) (hdir : d.isDirectory = true) :
    ∃ k v, addPath fs q base d true w = .ok k v ∧ Fills fs base [q] w k v := by
  have hkind := ofNode?_of_isDirectory hdir
  by_cases hignored : w.patterns.isIgnored name true = true
  · have hjudge : w.judge q base d true = .rejected (.ignored name) := by
      simp [Writer.judge, hq.named, hkind, hw.full, hq.notBase, hignored]
    have hlacks : lacking fs base w.patterns w.claims.names q = none := by
      rw [hq.lacking_eq, if_neg (by simp [hignored])]
    have hleft : leftOut fs base w.patterns q = some (.ignored name) := by
      rw [hq.leftOut_eq, if_pos ⟨hdir, hignored⟩]
    refine ⟨0, _, addPath_of_accept (accept_of_rejected hjudge),
      .told_only hw (Grows.tell _ w) hlacks ?_⟩
    rw [List.filterMap_cons_some hleft, diagnostics_tell]
    rfl
  · have hkept : w.patterns.isIgnored name true = false := by simpa using hignored
    have hleft : leftOut fs base w.patterns q = none := by
      rw [hq.leftOut_eq, if_neg (by simp [hkept])]
    have hpass : Passes w.patterns w.filesOnly base q d name .directory :=
      ⟨hq.named, hkind, by simp [hw.full], fun _ => by simpa using hkept⟩
    rcases hholder : w.claims.holder? name with _ | first
    · -- the name is free
      have hfree : name ∉ w.claims.names := Claims.holder?_eq_none_iff.mp hholder
      have hadmits := hq.admits hw.full hpass hfree
      obtain ⟨t, m, ht, hm, hwrite⟩ :=
        hadmits.exists_write hq.sighted.lstat (not_locked_of_isDirectory hdir)
      obtain ⟨e, hwrite⟩ := hwrite (claimedBy w q name .directory) hsink
      rw [nameIn_of_full hw.full] at hm
      have hlacks : lacking fs base w.patterns w.claims.names q = some m := by
        rw [hq.lacking_eq, if_pos ⟨hdir, hkept, hfree⟩, hm]
      have hrun : addPath fs q base d true w
          = .ok 1 (((claimedBy w q name .directory).append m).note (.event e)) := by
        rw [hadmits.addPath_eq ht, bind_of_ok hwrite]
        rfl
      rw [claimedBy_of_full hw.full] at hrun
      exact ⟨1, _, hrun, .write hw hq hkind hfree hlacks hleft e⟩
    · -- it is held by a directory, so nothing is told
      have hheld : name ∈ w.claims.names := Claims.mem_names_of_holder? hholder
      have hlacks : lacking fs base w.patterns w.claims.names q = none := by
        rw [hq.lacking_eq, if_neg (by simp [hheld])]
      have hjudge : w.judge q base d true = .silent := by
        have hname : w.archiveName name = name := by
          rw [Writer.archiveName, hw.full]
          rfl
        rw [judge_of_passes hpass, Writer.judgeName]
        simp only [hname, hholder, hw.kind_of_holder hq hdir hholder, and_self, if_true]
      exact ⟨0, w, addPath_of_accept (accept_of_silent hjudge), .pass hw hlacks hleft⟩

lemma addParents_cons (hl : fs.lstat q = .ok d) (qs : List Path) (w : Writer) :
    addParents fs base (q :: qs) w
      = ((if d.isDirectory then addPath fs q base d true else pure 0 : Writing ℕ)
          >>= fun added => do
            let others ← addParents fs base qs
            return added + others) w := by
  rw [addParents, hl]
  simp only [ofOs, pure_bind]
  split <;> rfl

/-- **The directories on the way to a node**: those that lack an entry get it, in this order. -/
theorem addParents_fills (hw : Truthful fs base w) (hsink : w.sinkFault = none)
    (hqs : ∀ q ∈ qs, ∃ d name, Placed fs base q d name) (hnodup : qs.Nodup) :
    ∃ k w', addParents fs base qs w = .ok k w' ∧ Fills fs base qs w k w' := by
  induction qs generalizing w with
  | nil => exact ⟨0, w, rfl, .nil hw⟩
  | cons q qs ih =>
    obtain ⟨d, name, hq⟩ := hqs q List.mem_cons_self
    obtain ⟨hne, hnodup⟩ := List.nodup_cons.mp hnodup
    have hrest : ∀ q' ∈ qs, ∃ d' name', Placed fs base q' d' name' :=
      fun q' hq' => hqs q' (List.mem_cons_of_mem _ hq')
    obtain ⟨k, v, hrun, hfills⟩ : ∃ k v, (if d.isDirectory then addPath fs q base d true
        else pure 0 : Writing ℕ) w = .ok k v ∧ Fills fs base [q] w k v := by
      cases hdir : d.isDirectory with
      | true => exact addPath_fills hw hsink hq hdir
      | false =>
        refine ⟨0, w, rfl, .pass hw ?_ ?_⟩
        · rw [hq.lacking_eq, if_neg (by simp [hdir])]
        · rw [hq.leftOut_eq, if_neg (by simp [hdir])]
    obtain ⟨cs, hg, -⟩ := hfills.grows
    obtain ⟨l, w', hrun', hfills'⟩ := ih hfills.truthful (hg.sinkFault.trans hsink) hrest hnodup
    refine ⟨k + l, w', ?_, hfills.cons hq hrest hne hfills'⟩
    rw [addParents_cons hq.sighted.lstat, bind_of_ok hrun, bind_of_ok hrun']
    rfl

/-! ### The file -/

/-- The entry of a name is that of the node that has the name. -/
lemma Placed.of_entry
    (horigin : ∀ m ∈ w.members, ∃ q k, Sighted fs base q k ∧ Wanted w.patterns base q k m)
    (hm : m ∈ w.members) (hq : Placed fs base q d m.name) : Wanted w.patterns base q d m := by
  obtain ⟨q', k, hseen, hwanted⟩ := horigin m hm
  obtain ⟨rfl, rfl⟩ := hseen.unique hq.sighted hwanted.named hq.named
  exact hwanted

/-- What is wanted and has a free name is let in. -/
lemma Wanted.admits (hw : Truthful fs base w) (hp : Sighted fs base p n)
    (hm : Wanted w.patterns base p n m) (hfree : m.name ∉ w.claims.names) :
    Admits w base p n m.name m.kind := by
  have hpass := hm.passes
  rw [← hw.full] at hpass
  exact Placed.admits ⟨hp, hm.named, hm.notBase⟩ hw.full hpass hfree

/-- A file that is let in claims its name before the directories are looked at. -/
lemma Wanted.exists_fills (hw : Truthful fs base w) (hsink : w.sinkFault = none)
    (hp : Sighted fs base p n) (hm : Wanted w.patterns base p n m)
    (hfree : m.name ∉ w.claims.names) : ∃ k w₁,
      addParents fs base (if w.filesOnly then [] else parentsBelow p base)
        (claimedBy w p m.name m.kind) = .ok k w₁
      ∧ Fills fs base (parentsBelow p base) (w.claim m.name ⟨m.kind, p⟩) k w₁ := by
  have hplaced : Placed fs base p n m.name := ⟨hp, hm.named, hm.notBase⟩
  rw [if_neg (by simp [hw.full]), claimedBy_of_full hw.full]
  exact addParents_fills (hw.claim hplaced (kind_of_memberAs hm.member) hfree) hsink
    (fun _ => hplaced.exists_of_mem_parentsBelow) hplaced.nodup_parentsBelow

/-- If it may be read, it is written after them. -/
lemma addFile_fills (hw : Truthful fs base w) (hsink : w.sinkFault = none)
    (hp : Sighted fs base p n) (hn : ¬ Locked fs n) (hm : Wanted w.patterns base p n m)
    (hfree : m.name ∉ w.claims.names) : ∃ k w₁ e,
      addFile fs p base n w = .ok (k + 1) ((w₁.append m).note (.event e))
        ∧ Fills fs base (parentsBelow p base) (w.claim m.name ⟨m.kind, p⟩) k w₁ := by
  have hadmits := Wanted.admits hw hp hm hfree
  obtain ⟨t, m', ht, hm', hwrite⟩ := hadmits.exists_write hp.lstat hn
  rw [nameIn_of_full hw.full] at hm'
  obtain rfl : m' = m := Option.some.inj (hm'.symm.trans hm.member)
  obtain ⟨k, w₁, hparents, hfills⟩ := Wanted.exists_fills hw hsink hp hm hfree
  obtain ⟨cs, hg, -⟩ := hfills.grows
  obtain ⟨e, hwrite⟩ := hwrite w₁ (hg.sinkFault.trans hsink)
  refine ⟨k, w₁, e, ?_, hfills⟩
  rw [hadmits.addFile_eq ht, bind_of_ok hparents, bind_of_ok hwrite]
  rfl

end DeployClient.Archive
