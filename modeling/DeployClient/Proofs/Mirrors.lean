import DeployClient.Proofs.FlatEntries
import DeployClient.Proofs.LockedFiles

/-!
A run that keeps directories and one that does not, side by side.

The two claim different names and skip at different steps. What they keep in common is
`Mirrors`: the entries of the one are the flattened entries of the other. They part only at a file
that may not be read, where its last name is taken already: the one that does not keep directories
passes it over, and the other fails to open it.
-/

namespace DeployClient.Archive

open Tar (Member)

/-! ### The two runs side by side -/

section

variable {fs : FileSystem} {base p : Path} {n : Node} {w w' v v' : Writer} {m : Member}
  {above own own' : List Record} {k l : Nat}

lemma eq_singleton_of_mem {l : List Record} {r : Record} (hl : l.length ≤ 1) (hr : r ∈ l) :
    l = [r] := by
  match l, hl with
  | [x], _ => rw [List.mem_singleton.mp hr]

lemma Added.notMem (h : Added fs base p n w k w' above own) (hs : InStep w) {r : Record}
    (hr : r ∈ above ++ own) : r.entry.name ∉ w.members.map Member.name :=
  hs.notMem h.logs hr

/-- What passes under a free name gets an entry. -/
lemma Added.exists_of_passes (h : Added fs base p n w k w' above own) (hs : InStep w)
    {path : Bytes} {kind : Kind} (hp : Passes w.patterns w.filesOnly base p n path kind)
    (hne : nameIn w.filesOnly path ≠ baseName)
    (hnew : nameIn w.filesOnly path ∉ w.members.map Member.name) :
    ∃ r ∈ above ++ own, r.entry.name = nameIn w.filesOnly path := by
  obtain ⟨cs, hg, -⟩ := h.logs.grows
  have hclaimed := h.claimed path kind
  rw [hg.patterns, hg.filesOnly] at hclaimed
  have hmem := ((hs.of_logs h.logs).names _).mpr ⟨hne, hclaimed hp⟩
  rw [hg.members, List.map_append] at hmem
  obtain ⟨m, hm, hname⟩ := List.mem_map.mp ((List.mem_append.mp hmem).resolve_left hnew)
  obtain ⟨r, hr, rfl⟩ := List.mem_map.mp hm
  exact ⟨r, hr, hname⟩

/-- The writer that keeps directories, and the one that does not, after the same operations. -/
structure Mirrors (fs : FileSystem) (base : Path) (w v : Writer) : Prop where
  patterns : v.patterns = w.patterns
  full : w.filesOnly = false
  flat : v.filesOnly = true
  fullSink : w.sinkFault = none
  flatSink : v.sinkFault = none
  fullStep : InStep w
  flatStep : InStep v
  origin : ∀ m ∈ w.members,
    ∃ q k, Sighted fs base q k ∧ ¬ Locked fs k ∧ Wanted w.patterns base q k m
  members : v.members = flatten w.members

/-- The entries of directories above a file. -/
lemma kind_of_implied {patterns : Ignore.Patterns} {filesOnly : Bool} {r : Record}
    (hm : r.Made patterns filesOnly fs base) (h : r.node.isDirectory = true) :
    r.member.kind = .directory := by
  obtain ⟨path, hp, -⟩ := hm.entryOf.passes
  rw [← decide_eq_isDirectory hp.ofNode] at h
  exact of_decide_eq_true h

namespace Mirrors

/-! ### One node, added to both -/

lemma made (h : Mirrors fs base w v) (hw : Added fs base p n w k w' above own) :
    ∀ r ∈ above ++ own, r.Made w.patterns false fs base := by
  have hmade := hw.logs.made
  rwa [h.full] at hmade

lemma made_flat (h : Mirrors fs base w v) (hv : Added fs base p n v l v' [] own') :
    ∀ r ∈ own', r.Made w.patterns true fs base := by
  have hmade := hv.logs.made
  rwa [h.flat, h.patterns] at hmade

/-- The directories above leave no trace. -/
lemma flatten_above (h : Mirrors fs base w v) (hw : Added fs base p n w k w' above own) :
    flatten (w.members ++ above.map Record.member) = v.members := by
  rw [h.members]
  refine flatten_append_directories fun m hm => ?_
  obtain ⟨r, hr, rfl⟩ := List.mem_map.mp hm
  exact kind_of_implied (h.made hw r (List.mem_append_left _ hr)) (hw.implied r hr).isDirectory

lemma wanted_of_own (h : Mirrors fs base w v) (hp : Sighted fs base p n)
    (hw : Added fs base p n w k w' above own) {r : Record} (hr : r ∈ own) :
    Wanted w.patterns base p n r.member := by
  obtain ⟨rfl, rfl⟩ := hw.given r hr
  exact (h.made hw r (List.mem_append_right _ hr)).wanted hp.lstat

lemma exists_wanted_of_flat (h : Mirrors fs base w v) (hp : Sighted fs base p n)
    (hv : Added fs base p n v l v' [] own') {r : Record} (hr : r ∈ own') :
    ∃ m, Wanted w.patterns base p n m ∧ m.kind ≠ .directory ∧ r.member = flatMember m := by
  obtain ⟨rfl, rfl⟩ := hv.given r hr
  obtain ⟨m, hm, hkind, -⟩ := (h.made_flat hv r hr).entryOf.exists_wanted_flat
  exact ⟨m, hm, hkind, (h.made_flat hv r hr).member_flat hp.lstat hm⟩

lemma member_of_flat (h : Mirrors fs base w v) (hp : Sighted fs base p n)
    (hv : Added fs base p n v l v' [] own') (hm : Wanted w.patterns base p n m) {r : Record}
    (hr : r ∈ own') : r.member = flatMember m := by
  obtain ⟨m', hm', -, hr'⟩ := h.exists_wanted_of_flat hp hv hr
  rw [hr', hm.unique hm']

/-- A node that has its entry gets no other. -/
lemma own_of_held (h : Mirrors fs base w v) (hp : Sighted fs base p n)
    (hw : Added fs base p n w k w' above own) (hm : Wanted w.patterns base p n m)
    (hheld : m.name ∈ w.members.map Member.name) : own = [] := by
  refine List.eq_nil_iff_forall_not_mem.mpr fun r hr =>
    hw.notMem h.fullStep (List.mem_append_right _ hr) ?_
  have hname : r.entry.name = m.name :=
    congrArg Member.name (hm.unique (h.wanted_of_own hp hw hr))
  rwa [hname]

/-- A node that lacks its entry gets it; no directory above it has its name. -/
lemma own_of_new (h : Mirrors fs base w v) (hp : Sighted fs base p n)
    (hw : Added fs base p n w k w' above own) (hm : Wanted w.patterns base p n m)
    (hkind : m.kind ≠ .directory) (hnew : m.name ∉ w.members.map Member.name) :
    own.map Record.member = [m] := by
  have hpass := hm.passes
  rw [← h.full] at hpass
  obtain ⟨r, hr, hname⟩ := hw.exists_of_passes h.fullStep hpass
    (by rw [h.full]; exact hm.notBase) (by rw [h.full]; exact hnew)
  rw [h.full] at hname
  have hsame : r.member.name = m.name := hname
  have hmem : r ∈ own := by
    refine (List.mem_append.mp hr).resolve_left fun hr => ?_
    have himplied := hw.implied r hr
    have hrecord := h.made hw r (List.mem_append_left _ hr)
    have hwanted := hrecord.wanted himplied.lstat
    obtain ⟨hsource, hnode⟩ := (hp.of_mem_parentsBelow himplied.parent himplied.lstat).unique hp
      hwanted.named (hsame ▸ hm.named)
    rw [hsource, hnode] at hwanted
    exact hkind (hm.unique hwanted ▸ kind_of_implied hrecord himplied.isDirectory)
  rw [eq_singleton_of_mem hw.single hmem, List.map_singleton,
    hm.unique (h.wanted_of_own hp hw hmem)]

/-- A name that is held in the flat archive stays with its first entry. -/
lemma flat_of_held (h : Mirrors fs base w v) (hp : Sighted fs base p n)
    (hv : Added fs base p n v l v' [] own') (hm : Wanted w.patterns base p n m)
    (hheld : (flatMember m).name ∈ v.members.map Member.name) : own' = [] := by
  refine List.eq_nil_iff_forall_not_mem.mpr fun r hr => hv.notMem h.flatStep hr ?_
  have hname : r.entry.name = (flatMember m).name :=
    congrArg Member.name (h.member_of_flat hp hv hm hr)
  rwa [hname]

lemma flat_of_new (h : Mirrors fs base w v) (hp : Sighted fs base p n)
    (hv : Added fs base p n v l v' [] own') (hm : Wanted w.patterns base p n m)
    (hkind : m.kind ≠ .directory) (hnew : (flatMember m).name ∉ v.members.map Member.name) :
    own'.map Record.member = [flatMember m] := by
  have hpass := hm.passes_flat hkind
  rw [← h.flat, ← h.patterns] at hpass
  obtain ⟨r, hr, -⟩ := hv.exists_of_passes h.flatStep hpass
    (by rw [h.flat]; exact hp.lastPart_ne hm.named hm.notBase) (by rw [h.flat]; exact hnew)
  rw [List.nil_append] at hr
  rw [eq_singleton_of_mem hv.single hr, List.map_singleton, h.member_of_flat hp hv hm hr]

/-- An entry has its last name in the flat archive. -/
lemma mem_flat_of_held (h : Mirrors fs base w v) (hp : Sighted fs base p n)
    (hm : Wanted w.patterns base p n m) (hkind : m.kind ≠ .directory)
    (hheld : m.name ∈ w.members.map Member.name) :
    (flatMember m).name ∈ v.members.map Member.name := by
  obtain ⟨m', hm', hname⟩ := List.mem_map.mp hheld
  obtain ⟨q, k, hq, -, hm''⟩ := h.origin m' hm'
  obtain ⟨rfl, rfl⟩ := hq.unique hp hm''.named (hname ▸ hm.named)
  obtain rfl := hm.unique hm''
  rw [h.members, names_flatten]
  exact ⟨m', hm', hkind, rfl⟩

/-- A file or a link, added to both. -/
lemma members_wanted (h : Mirrors fs base w v) (hp : Sighted fs base p n)
    (hw : Added fs base p n w k w' above own) (hv : Added fs base p n v l v' [] own')
    (hm : Wanted w.patterns base p n m) (hkind : m.kind ≠ .directory) :
    v.members ++ own'.map Record.member
      = flatten (w.members ++ above.map Record.member ++ own.map Record.member) := by
  have habove := h.flatten_above hw
  by_cases hold : m.name ∈ w.members.map Member.name
  · rw [h.own_of_held hp hw hm hold,
      h.flat_of_held hp hv hm (h.mem_flat_of_held hp hm hkind hold), List.map_nil,
      List.append_nil, List.append_nil, habove]
  · rw [h.own_of_new hp hw hm hkind hold]
    by_cases hflat : (flatMember m).name ∈ v.members.map Member.name
    · rw [h.flat_of_held hp hv hm hflat, flatten_append_held hkind (habove ▸ hflat), habove,
        List.map_nil, List.append_nil]
    · rw [h.flat_of_new hp hv hm hkind hflat, flatten_append_new hkind (habove ▸ hflat), habove]

/-- A directory, or what no archive takes. -/
lemma members_unwanted (h : Mirrors fs base w v) (hp : Sighted fs base p n)
    (hw : Added fs base p n w k w' above own) (hv : Added fs base p n v l v' [] own')
    (hnone : ∀ m, Wanted w.patterns base p n m → m.kind = .directory) :
    v.members ++ own'.map Record.member
      = flatten (w.members ++ above.map Record.member ++ own.map Record.member) := by
  have hnil : own' = [] := by
    refine List.eq_nil_iff_forall_not_mem.mpr fun r hr => ?_
    obtain ⟨m, hm, hkind, -⟩ := h.exists_wanted_of_flat hp hv hr
    exact hkind (hnone m hm)
  rw [hnil, List.map_nil, List.append_nil, flatten_append_directories, h.flatten_above hw]
  intro m hm
  obtain ⟨r, hr, rfl⟩ := List.mem_map.mp hm
  exact hnone _ (h.wanted_of_own hp hw hr)

lemma members_added (h : Mirrors fs base w v) (hp : Sighted fs base p n)
    (hw : Added fs base p n w k w' above own) (hv : Added fs base p n v l v' [] own') :
    v'.members = flatten w'.members := by
  obtain ⟨cs, hg, -⟩ := hw.logs.grows
  obtain ⟨ds, hg', -⟩ := hv.logs.grows
  rw [hg.members, hg'.members, List.nil_append, List.map_append, ← List.append_assoc]
  by_cases hwanted : ∃ m, Wanted w.patterns base p n m ∧ m.kind ≠ .directory
  · obtain ⟨m, hm, hkind⟩ := hwanted
    exact h.members_wanted hp hw hv hm hkind
  · refine h.members_unwanted hp hw hv fun m hm => ?_
    by_contra hkind
    exact hwanted ⟨m, hm, hkind⟩

lemma added (h : Mirrors fs base w v) (hp : Sighted fs base p n)
    (hw : Added fs base p n w k w' above own) (hv : Added fs base p n v l v' [] own') :
    Mirrors fs base w' v' := by
  obtain ⟨cs, hg, -⟩ := hw.logs.grows
  obtain ⟨ds, hg', -⟩ := hv.logs.grows
  refine ⟨by rw [hg'.patterns, hg.patterns, h.patterns], hg.filesOnly.trans h.full,
    hg'.filesOnly.trans h.flat, hg.sinkFault.trans h.fullSink, hg'.sinkFault.trans h.flatSink,
    h.fullStep.of_logs hw.logs, h.flatStep.of_logs hv.logs, ?_, h.members_added hp hw hv⟩
  intro m hm
  rw [hg.patterns]
  rw [hg.members] at hm
  rcases List.mem_append.mp hm with hm | hm
  · exact h.origin m hm
  · obtain ⟨r, hr, rfl⟩ := List.mem_map.mp hm
    have hmade := h.made hw r hr
    rcases List.mem_append.mp hr with hr | hr
    · have himplied := hw.implied r hr
      exact ⟨_, _, hp.of_mem_parentsBelow himplied.parent himplied.lstat,
        hmade.not_locked himplied.lstat, hmade.wanted himplied.lstat⟩
    · obtain ⟨rfl, rfl⟩ := hw.given r hr
      exact ⟨_, _, hp, hmade.not_locked hp.lstat, hmade.wanted hp.lstat⟩

/-- Telling something changes neither archive. -/
lemma told (h : Mirrors fs base w v) (hw : Grows w w' [] []) (hv : Grows v v' [] []) :
    Mirrors fs base w' v' := by
  have hwlogs : Logs (fun _ => True) w w' [] := .of_grows hw rfl
  have hvlogs : Logs (fun _ => True) v v' [] := .of_grows hv rfl
  have hmembers : w'.members = w.members := by simpa using hw.members
  have hmembers' : v'.members = v.members := by simpa using hv.members
  refine ⟨by rw [hv.patterns, hw.patterns, h.patterns], hw.filesOnly.trans h.full,
    hv.filesOnly.trans h.flat, hw.sinkFault.trans h.fullSink, hv.sinkFault.trans h.flatSink,
    h.fullStep.of_logs hwlogs, h.flatStep.of_logs hvlogs, ?_, ?_⟩
  · rw [hmembers, hw.patterns]
    exact h.origin
  · rw [hmembers, hmembers', h.members]

end Mirrors

/-! ### Where the runs part -/

namespace Mirrors

variable {path : Bytes} {kind : Kind}

end Mirrors

section

variable {dir : Path} {inputs : List Path} {op : Op} {ops : List Op} {e : Error}

/-- A file that may not be read has been passed over: its last name has an entry already. -/
def SkipsLocked (fs : FileSystem) (dir : Path) (inputs : List Path) (v : Writer) : Prop :=
  ∃ p n path, Candidate fs dir inputs p n ∧ Locked fs n
    ∧ Path.nameBelow (baseOf fs dir inputs) p = .named path
    ∧ Path.lastPart path ∈ v.members.map Member.name

lemma SkipsLocked.mono (h : SkipsLocked fs dir inputs v) (hsub : v.members ⊆ v'.members) :
    SkipsLocked fs dir inputs v' := by
  obtain ⟨p, n, path, hc, hn, hnamed, hheld⟩ := h
  exact ⟨p, n, path, hc, hn, hnamed, List.map_subset Member.name hsub hheld⟩

end

end

end DeployClient.Archive
