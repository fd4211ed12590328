import DeployClient.Proofs.Fates

/-!
The books of an archive run.

They hold the turns so far, against what the writer has claimed, written and told. A node of a walk
adds one turn to them, and a file that is given adds one for each directory above it, too.
-/

namespace DeployClient.Archive

open Tar (Member)

variable {fs : FileSystem} {base dir p q root input : Path} {n d : Node} {path name : Bytes}
  {kind : Kind} {m : Member} {patterns : Ignore.Patterns} {filesOnly : Bool} {w v w' w₀ : Writer}
  {before us : List Turn} {fate : Fate} {start : List Diagnostic} {inputs qs : List Path} {k : ℕ}
  {cs : List (Bytes × Claimant)}

/-! ### Books -/

/-- What holds of the names of a writer on the way. -/
structure Sound (fs : FileSystem) (base : Path) (w : Writer) : Prop where
  inStep : InStep w
  truthful : w.filesOnly = false → Truthful fs base w
  origin : w.filesOnly = false →
    ∀ m ∈ w.members, ∃ q k, Sighted fs base q k ∧ Wanted w.patterns base q k m

/-- The writer after some operations of a run. -/
def Reached (fs : FileSystem) (dir : Path) (inputs : List Path) (w₀ w : Writer) : Prop :=
  ∃ ops k, (∀ op ∈ ops, Called fs dir inputs op) ∧ runAll ops w₀ = .ok k w

lemma Reached.refl (w : Writer) : Reached fs dir inputs w w := ⟨[], 0, by simp, rfl⟩

lemma Reached.run {ops : List Op} (h : Reached fs dir inputs w₀ w)
    (hops : ∀ op ∈ ops, Called fs dir inputs op) (hrun : runAll ops w = .ok k v) :
    Reached fs dir inputs w₀ v := by
  obtain ⟨before, a, hbefore, hall⟩ := h
  refine ⟨before ++ ops, a + k, fun op hop => ?_, ?_⟩
  · exact (List.mem_append.mp hop).elim (hbefore op) (hops op)
  · exact runAll_append_eq_ok_iff.mpr ⟨a, w, k, hall, hrun, rfl⟩

lemma Reached.sound (h : Reached fs dir inputs w₀ w) (hc : w₀.claims = .empty)
    (hm : w₀.members = []) : Sound fs (baseOf fs dir inputs) w := by
  obtain ⟨ops, k, hops, hrun⟩ := h
  obtain ⟨rs, hrs⟩ := exists_accounts hc hm hrun
  refine ⟨hrs.inStep, fun hfull => ?_, fun hfull m hmem => ?_⟩
  · exact hrs.truthful hops (hrs.filesOnly.symm.trans hfull)
  · exact hrs.exists_wanted hops (hrs.filesOnly.symm.trans hfull) hmem

/-- A node of a kind that gets entries where directories are kept or left out. -/
def Listed (filesOnly : Bool) (n : Node) : Prop :=
  (Kind.ofNode? n).isSome ∧ ¬ (filesOnly = true ∧ n.isDirectory = true)

/-- The turns of a run so far, against what has been written, told and claimed. -/
structure Books (fs : FileSystem) (base : Path) (patterns : Ignore.Patterns) (filesOnly : Bool)
    (start : List Diagnostic) (before : List Turn) (w : Writer) : Prop where
  filters : w.patterns = patterns
  mode : w.filesOnly = filesOnly
  mute : w.mute = false
  sink : w.sinkFault = none
  entries : w.members = membersOf before
  told : w.diagnostics = start ++ toldOf before
  held : ∀ n, fs.lstat base = .ok n → Listed filesOnly n →
    (baseName ∈ w.claims.names ↔ VisitedIn before base)
  fair : ∀ front t back, before = front ++ t :: back → Fair patterns filesOnly base front t

/-- What holds of every place in two lists holds of every place in both together. -/
lemma forall_split_append {α : Type} {P : List α → α → Prop} {l us : List α}
    (hl : ∀ front t back, l = front ++ t :: back → P front t)
    (hus : ∀ front t back, us = front ++ t :: back → P (l ++ front) t) :
    ∀ front t back, l ++ us = front ++ t :: back → P front t := by
  intro front t back h
  rcases List.append_eq_append_iff.mp h with ⟨c, rfl, hc⟩ | ⟨c, hl', hc⟩
  · exact hus c t back hc
  · rcases c with _ | ⟨x, c⟩
    · rw [List.append_nil] at hl'
      have hfirst := hus [] t back hc.symm
      rwa [List.append_nil, hl'] at hfirst
    · obtain ⟨rfl, -⟩ := List.cons.inj hc
      exact hl front t c hl'

namespace Books

/-- The turns that a step adds. -/
lemma extend (hb : Books fs base patterns filesOnly start before w)
    (hg : Grows w v cs (membersOf us)) (htold : v.diagnostics = w.diagnostics ++ toldOf us)
    (hclaim : baseName ∈ cs.map Prod.fst → VisitedIn us base)
    (hvisit : ∀ n, fs.lstat base = .ok n → Listed filesOnly n → VisitedIn us base →
      baseName ∈ v.claims.names)
    (hfair : ∀ front t back, us = front ++ t :: back →
      Fair patterns filesOnly base (before ++ front) t) :
    Books fs base patterns filesOnly start (before ++ us) v where
  filters := hg.patterns.trans hb.filters
  mode := hg.filesOnly.trans hb.mode
  mute := hg.mute.trans hb.mute
  sink := hg.sinkFault.trans hb.sink
  entries := by rw [hg.members, hb.entries, membersOf_append]
  told := by rw [htold, hb.told, toldOf_append, List.append_assoc]
  held := by
    intro n hn hlisted
    have hw := hb.held n hn hlisted
    rw [visitedIn_append]
    constructor
    · intro hmem
      rw [Claims.names, hg.claims, List.map_append] at hmem
      rcases List.mem_append.mp hmem with hmem | hmem
      · exact .inl (hw.mp hmem)
      · exact .inr (hclaim hmem)
    · rintro (hvisited | hvisited)
      · exact hg.names_subset (hw.mpr hvisited)
      · exact hvisit n hn hlisted hvisited
  fair := forall_split_append hb.fair hfair

/-- What is noted for the log is not told. -/
lemma note (hb : Books fs base patterns filesOnly start before w) (e : Event) :
    Books fs base patterns filesOnly start before (w.note (.event e)) := by
  have hgrows : Grows w (w.note (.event e)) [] (membersOf []) := Grows.note _ w
  have hall := hb.extend hgrows (by rw [diagnostics_event]; simp [toldOf]) (by simp)
    (by simp [VisitedIn]) (by simp)
  rwa [List.append_nil] at hall

/-- The one turn that a step adds. -/
lemma add {t : Turn} (hb : Books fs base patterns filesOnly start before w)
    (hg : Grows w v cs t.fate.member?.toList)
    (htold : v.diagnostics = w.diagnostics ++ t.fate.told?.toList)
    (hclaim : baseName ∈ cs.map Prod.fst → ∃ k, t.stop = .visited base k)
    (hvisit : ∀ n, fs.lstat base = .ok n → Listed filesOnly n → (∃ k, t.stop = .visited base k) →
      baseName ∈ v.claims.names)
    (hfair : Fair patterns filesOnly base before t) :
    Books fs base patterns filesOnly start (before ++ [t]) v := by
  have hvisited : VisitedIn [t] base ↔ ∃ k, t.stop = .visited base k := by simp [VisitedIn]
  rw [← membersOf_singleton] at hg
  rw [← toldOf_singleton] at htold
  refine hb.extend hg htold (fun h => hvisited.mpr (hclaim h))
    (fun n hn hlisted h => hvisit n hn hlisted (hvisited.mp h)) ?_
  intro front u back hu
  rcases front with _ | ⟨x, front⟩
  · obtain ⟨rfl, -⟩ := List.cons.inj hu
    rwa [List.append_nil]
  · simpa using congrArg List.length hu

/-- The turn of a node that is visited. Only the base has the base's name. -/
lemma visit (hb : Books fs base patterns filesOnly start before w) (hp : Sighted fs base p n)
    (hg : Grows w v cs fate.member?.toList)
    (htold : v.diagnostics = w.diagnostics ++ fate.told?.toList)
    (hclaim : baseName ∈ cs.map Prod.fst → p = base)
    (hbase : p = base → Listed filesOnly n → baseName ∈ v.claims.names)
    (h : Visited patterns filesOnly base before p n fate) :
    Books fs base patterns filesOnly start (before ++ [⟨.visited p n, fate⟩]) v := by
  refine hb.add hg htold (fun hc => ?_) ?_ (.visited h)
  · obtain rfl := hclaim hc
    exact ⟨n, rfl⟩
  · rintro k hk hlisted ⟨k', hstop⟩
    obtain ⟨rfl, rfl⟩ := Stop.visited.inj hstop
    obtain rfl : n = k := Except.ok.inj (hp.lstat.symm.trans hk)
    exact hbase rfl hlisted

/-! ### Nodes that are visited -/

lemma listed_of_passes (hpass : Passes patterns filesOnly base p n path kind) :
    Listed filesOnly n := by
  refine ⟨by simp [hpass.ofNode], fun ⟨hflat, hdir⟩ => ?_⟩
  have hkind := hpass.ofNode.symm.trans (ofNode?_of_isDirectory hdir)
  exact hpass.listed ⟨Option.some.inj hkind, hflat⟩

/-- A node that passes the filters is not passed over in silence, unless it is the base. -/
lemma not_quiet (hpass : Passes patterns filesOnly base p n path kind)
    (hbase : p = base → VisitedIn before base) : ¬ Quiet filesOnly base before p n := by
  rintro (⟨hflat, hdir, -⟩ | ⟨hp, -, hnew⟩)
  · exact (listed_of_passes hpass).2 ⟨hflat, hdir⟩
  · exact hnew (hbase hp)

lemma nameBelow_self (h : base.IsNormal) : Path.nameBelow base base = .named baseName := by
  obtain ⟨bs, rfl, hbs⟩ := h
  have hbelow : Path.Below (Path.ofNames true bs) (Path.ofNames true bs) bs [] :=
    ⟨rfl, by rw [List.append_nil], by simpa using hbs⟩
  rw [Path.nameBelow_of_below hbelow]
  rfl

/-- A turn at which a node is told of. -/
lemma tell {x : Diagnostic} (hb : Books fs base patterns filesOnly start before w)
    (hp : Sighted fs base p n) (hloud : ¬ Quiet filesOnly base before p n)
    (hx : Explains patterns filesOnly base before p n x)
    (hbase : p = base → Listed filesOnly n → baseName ∈ w.claims.names) :
    Books fs base patterns filesOnly start (before ++ [⟨.visited p n, .told x⟩]) (w.tell x) := by
  have hgrows := Grows.tell x w
  refine hb.visit hp hgrows ?_ (by simp)
    (fun h hlisted => hgrows.names_subset (hbase h hlisted)) (.told hloud hx)
  rw [diagnostics_tell, hb.mute]
  rfl

/-- The name of a node that passes the filters is held by the base or by an entry. -/
lemma explains_duplicate (hb : Books fs base patterns filesOnly start before w) (hs : InStep w)
    (hp : Sighted fs base p n) (hpass : Passes patterns filesOnly base p n path kind)
    (hheld : nameIn filesOnly path ∈ w.claims.names) :
    ¬ Quiet filesOnly base before p n
      ∧ Explains patterns filesOnly base before p n (.duplicate path) := by
  have hiff := hp.nameIn_eq_baseName_iff hpass.named filesOnly
  by_cases hbase : p = base
  · rw [hiff.mpr hbase] at hheld
    have hvisited := (hb.held n (hbase ▸ hp.lstat) (listed_of_passes hpass)).mp hheld
    exact ⟨not_quiet hpass fun _ => hvisited, .again hpass.named hbase hvisited⟩
  · have hne : nameIn filesOnly path ≠ baseName := fun h => hbase (hiff.mp h)
    have hmem := (hs.names _).mpr ⟨hne, hheld⟩
    rw [hb.entries] at hmem
    exact ⟨not_quiet hpass fun h => absurd h hbase, .duplicate hpass.named hmem⟩

/-- **A node that is passed over** is told of, unless its visit leaves no trace. -/
theorem passedOver (hb : Books fs base patterns filesOnly start before w) (hs : InStep w)
    (hp : Sighted fs base p n) (h : PassedOver w base p n fate v) :
    Books fs base patterns filesOnly start (before ++ [⟨.visited p n, fate⟩]) v := by
  have hself := nameBelow_self hp.normalBase
  have hfilters := hb.filters
  have hmode := hb.mode
  subst hfilters hmode
  cases h with
  | notUnicode h =>
    have hother : p ≠ base := by
      rintro rfl
      simp [hself] at h
    refine hb.tell hp ?_ (.notUnicode h) fun hp => absurd hp hother
    rintro (⟨-, -, path, hnamed⟩ | ⟨hp, -⟩)
    · simp [h] at hnamed
    · exact hother hp
  | unsupported named h =>
    refine hb.tell hp ?_ (.unsupported named h) fun _ hlisted => by
      simp [Listed, h] at hlisted
    rintro (⟨-, hdir, -⟩ | ⟨-, hkind, -⟩)
    · simp [ofNode?_of_isDirectory hdir] at h
    · simp [h] at hkind
  | omitted named hd h =>
    have hquiet : Quiet w.filesOnly base before p n := .inl ⟨h, hd, _, named⟩
    exact hb.visit hp (Grows.refl w) (by simp [Fate.told?]) (by simp)
      (fun _ hlisted => absurd ⟨h, hd⟩ hlisted.2) (.silent hquiet)
  | ignored named hne listed h =>
    have hother : p ≠ base := by
      rintro rfl
      exact hne (Naming.named.inj (named.symm.trans hself))
    refine hb.tell hp ?_ (.ignored named h) fun hp => absurd hp hother
    rintro (⟨hflat, hdir, -⟩ | ⟨hp, -⟩)
    · exact listed ⟨hdir, hflat⟩
    · exact hother hp
  | duplicate passes held e =>
    obtain ⟨hloud, hx⟩ := hb.explains_duplicate hs hp passes held
    refine (hb.note e).tell hp hloud hx fun hp' _ => ?_
    rwa [(hp.nameIn_eq_baseName_iff passes.named _).mpr hp'] at held
  | @base path kind passes named free =>
    obtain rfl := (hp.nameIn_eq_baseName_iff passes.named _).mp named
    have hlisted := listed_of_passes passes
    have hnew : ¬ VisitedIn before p := fun h => free ((hb.held n hp.lstat hlisted).mpr h)
    have hgrows : Grows w (w.claim baseName ⟨kind, p⟩) [(baseName, ⟨kind, p⟩)] [] :=
      Grows.claim _ (Claims.holder?_eq_none_iff.mpr free)
    refine hb.visit hp hgrows ?_ (fun _ => rfl) (fun _ _ => ?_)
      (.silent (.inr ⟨rfl, hlisted.1, hnew⟩))
    · simp [Fate.told?, Writer.diagnostics, Writer.claim]
    · simp [Claims.names, hgrows.claims]

/-- A claim of another name than that of the base. -/
lemma claim (hb : Books fs base patterns filesOnly start before w) (hne : name ≠ baseName)
    (hfree : name ∉ w.claims.names) (who : Claimant) :
    Books fs base patterns filesOnly start before (w.claim name who) := by
  have hgrows : Grows w (w.claim name who) [(name, who)] (membersOf []) :=
    Grows.claim who (Claims.holder?_eq_none_iff.mpr hfree)
  have hall := hb.extend hgrows (by simp [toldOf, Writer.diagnostics, Writer.claim])
    (fun h => absurd (List.mem_singleton.mp h).symm hne) (by simp [VisitedIn]) (by simp)
  rwa [List.append_nil] at hall

/-- An entry that is written for a node that has been let in. -/
lemma write (hb : Books fs base patterns filesOnly start before w) (hp : Sighted fs base p n)
    (hother : p ≠ base) (hpass : Passes patterns filesOnly base p n path kind)
    (hm : memberAs (nameIn filesOnly path) n = some m) (e : Event) :
    Books fs base patterns filesOnly start (before ++ [⟨.visited p n, .entry m⟩])
      ((w.append m).note (.event e)) := by
  have hloud : ¬ Quiet filesOnly base before p n := not_quiet hpass fun h => absurd h hother
  refine (hb.visit hp (Grows.append m w) ?_ (by simp) (fun h => absurd h hother)
    (.entry hloud hpass.named hm)).note e
  simp [Fate.told?, Writer.diagnostics, Writer.append]

end Books

/-! ### Steps -/

lemma Admits.ne_base (hp : Sighted fs base p n) (h : Admits w base p n path kind) : p ≠ base :=
  fun he => h.notBase ((hp.nameIn_eq_baseName_iff h.passes.named _).mpr he)

/-- **A node of a walk** adds one turn. -/
theorem addPath_books (hb : Books fs base patterns filesOnly start before w) (hs : InStep w)
    (hp : Sighted fs base p n) (hrun : addPath fs p base n false w = .ok k v) :
    ∃ fate, Books fs base patterns filesOnly start (before ++ [⟨.visited p n, fate⟩]) v := by
  rcases accept_cases hp w with ⟨fate, u, haccept, hpassed⟩ | ⟨path, kind, hadmits⟩
  · rw [addPath_of_accept haccept] at hrun
    obtain ⟨-, rfl⟩ := EStateM.Result.ok.inj hrun
    exact ⟨fate, hb.passedOver hs hp hpassed⟩
  · obtain ⟨t, m, ht, hm, hwrite⟩ :=
      hadmits.exists_write hp.lstat (hadmits.not_locked_of_addPath hp.lstat hrun)
    obtain ⟨e, hwrite⟩ := hwrite (claimedBy w p path kind) hb.sink
    rw [hadmits.addPath_eq ht, bind_of_ok hwrite] at hrun
    obtain ⟨-, rfl⟩ := EStateM.Result.ok.inj hrun
    have hpass := hadmits.passes
    rw [hb.filters, hb.mode] at hpass
    rw [hb.mode] at hm
    exact ⟨_, (hb.claim hadmits.notBase hadmits.free _).write hp (hadmits.ne_base hp) hpass hm e⟩

/-! ### Directories above a file -/

/-- The real directories among some paths. -/
def directoriesAt (fs : FileSystem) (qs : List Path) : List Visit :=
  qs.filterMap fun q =>
    match fs.lstat q with
    | .ok d => if d.isDirectory then some (q, d) else none
    | .error _ => none

/-- What becomes of a directory above a file. -/
def fateAbove (fs : FileSystem) (base : Path) (patterns : Ignore.Patterns) (taken : List Bytes)
    (q : Path) : Fate :=
  match leftOut fs base patterns q, lacking fs base patterns taken q with
  | some x, _ => .told x
  | none, some m => .entry m
  | none, none => .silent

/-- The turns that the directories above a file lead to. -/
def turnsAbove (fs : FileSystem) (base : Path) (patterns : Ignore.Patterns) (taken : List Bytes)
    (qs : List Path) : List Turn :=
  (directoriesAt fs qs).map fun v => ⟨.implied v.1 v.2, fateAbove fs base patterns taken v.1⟩

variable {taken : List Bytes}

lemma mem_directoriesAt {u : Visit} (h : u ∈ directoriesAt fs qs) :
    u.1 ∈ qs ∧ fs.lstat u.1 = .ok u.2 ∧ u.2.isDirectory = true := by
  obtain ⟨q, hq, hu⟩ := List.mem_filterMap.mp h
  split at hu
  · next d hd =>
    split at hu
    · next hdir =>
      obtain rfl := Option.some.inj hu
      exact ⟨hq, hd, hdir⟩
    · simp at hu
  · simp at hu

/-- What only directories have is found at the directories. -/
lemma filterMap_directoriesAt {α : Type} {f : Path → Option α}
    (h : ∀ q, f q ≠ none → ∃ d, fs.lstat q = .ok d ∧ d.isDirectory = true) (qs : List Path) :
    (directoriesAt fs qs).filterMap (fun v => f v.1) = qs.filterMap f := by
  rw [directoriesAt, List.filterMap_filterMap]
  refine List.filterMap_congr fun q _ => ?_
  by_cases hf : f q = none
  · rcases fs.lstat q with e | d
    · simp [hf]
    · cases hdir : d.isDirectory <;> simp [hdir, hf]
  · obtain ⟨d, hd, hdir⟩ := h q hf
    simp [hd, hdir]

lemma isDirectory_of_lacking (h : lacking fs base patterns taken q ≠ none) :
    ∃ d, fs.lstat q = .ok d ∧ d.isDirectory = true := by
  unfold lacking at h
  split at h
  · next d name hd hname =>
    split at h
    · next hall => exact ⟨d, hd, hall.1⟩
    · simp at h
  · simp at h

lemma isDirectory_of_leftOut (h : leftOut fs base patterns q ≠ none) :
    ∃ d, fs.lstat q = .ok d ∧ d.isDirectory = true := by
  unfold leftOut at h
  split at h
  · next d name hd hname =>
    split at h
    · next hall => exact ⟨d, hd, hall.1⟩
    · simp at h
  · simp at h

/-- A directory that a pattern leaves out lacks nothing. -/
lemma lacking_of_leftOut {x : Diagnostic} (h : leftOut fs base patterns q = some x) :
    lacking fs base patterns taken q = none := by
  unfold leftOut at h
  unfold lacking
  split at h
  · next d name hd hname =>
    split at h
    · next hall => exact if_neg fun hlacks => by simp [hall.2] at hlacks
    · simp at h
  · simp at h

lemma member?_fateAbove (q : Path) :
    (fateAbove fs base patterns taken q).member? = lacking fs base patterns taken q := by
  unfold fateAbove
  cases hleft : leftOut fs base patterns q with
  | some x => exact (lacking_of_leftOut hleft).symm
  | none => cases lacking fs base patterns taken q <;> rfl

lemma told?_fateAbove (q : Path) :
    (fateAbove fs base patterns taken q).told? = leftOut fs base patterns q := by
  unfold fateAbove
  cases hleft : leftOut fs base patterns q with
  | some x => rfl
  | none => cases lacking fs base patterns taken q <;> rfl

lemma membersOf_turnsAbove : membersOf (turnsAbove fs base patterns taken qs)
    = qs.filterMap (lacking fs base patterns taken) := by
  rw [← filterMap_directoriesAt (fun _ => isDirectory_of_lacking), membersOf, turnsAbove,
    List.filterMap_map]
  exact List.filterMap_congr fun v _ => member?_fateAbove v.1

lemma toldOf_turnsAbove : toldOf (turnsAbove fs base patterns taken qs)
    = qs.filterMap (leftOut fs base patterns) := by
  rw [← filterMap_directoriesAt (fun _ => isDirectory_of_leftOut), toldOf, turnsAbove,
    List.filterMap_map]
  exact List.filterMap_congr fun v _ => told?_fateAbove v.1

lemma not_visitedIn_turnsAbove : ¬ VisitedIn (turnsAbove fs base patterns taken qs) p := by
  rintro ⟨t, ht, n, hn⟩
  obtain ⟨u, -, rfl⟩ := List.mem_map.mp ht
  simp at hn

/-- What becomes of a directory above a file is as it should be, if the directories whose names are
taken have their entries. -/
lemma fair_turnsAbove (hplaced : ∀ q ∈ qs, ∃ d name, Placed fs base q d name)
    (htaken : ∀ q ∈ qs, ∀ d name, Placed fs base q d name → name ∈ taken →
      ∃ m ∈ membersOf before, m.name = name ∧ memberAs name d = some m) {t : Turn}
    (ht : t ∈ turnsAbove fs base patterns taken qs) : Fair patterns filesOnly base before t := by
  obtain ⟨⟨q, d⟩, hu, rfl⟩ := List.mem_map.mp ht
  obtain ⟨hq, hl, hdir⟩ := mem_directoriesAt hu
  obtain ⟨d', name, h⟩ := hplaced q hq
  obtain rfl : d' = d := Except.ok.inj (h.sighted.lstat.symm.trans hl)
  refine .implied ?_
  rw [fateAbove, h.leftOut_eq, h.lacking_eq]
  by_cases hignored : patterns.isIgnored name true = true
  · rw [if_pos ⟨hdir, hignored⟩]
    exact .ignored h.named hignored
  · have hkept : patterns.isIgnored name true = false := by simpa using hignored
    rw [if_neg (by simp [hkept])]
    by_cases hfree : name ∉ taken
    · obtain ⟨m, hm⟩ := exists_memberAs name (ofNode?_of_isDirectory hdir)
      obtain rfl := name_of_memberAs hm
      rw [if_pos ⟨hdir, hkept, hfree⟩, hm]
      exact .entry h.named hm
    · obtain ⟨m, hmem, rfl, hm⟩ := htaken q hq d' name h (not_not.mp hfree)
      rw [if_neg (by simp [hfree])]
      exact .there h.named hm hmem

/-- The directories above a file add their turns. -/
lemma Books.above (hb : Books fs base patterns filesOnly start before w)
    (hfills : Fills fs base qs w k v) (hplaced : ∀ q ∈ qs, ∃ d name, Placed fs base q d name)
    (htaken : ∀ q ∈ qs, ∀ d name, Placed fs base q d name → name ∈ w.claims.names →
      ∃ m ∈ membersOf before, m.name = name ∧ memberAs name d = some m) :
    Books fs base patterns filesOnly start
      (before ++ turnsAbove fs base patterns w.claims.names qs) v := by
  have hfilters := hb.filters
  subst hfilters
  obtain ⟨cs, hg, hcs⟩ := hfills.grows
  rw [← membersOf_turnsAbove] at hg hcs
  refine hb.extend hg ?_ (fun hclaim => ?_) (fun _ _ _ h => absurd h not_visitedIn_turnsAbove) ?_
  · rw [hfills.told, hb.mute, toldOf_turnsAbove]
    rfl
  · rw [hcs, membersOf_turnsAbove] at hclaim
    obtain ⟨m, hm, hname⟩ := List.mem_map.mp hclaim
    obtain ⟨q, hq, hlacks⟩ := List.mem_filterMap.mp hm
    obtain ⟨d, name, h⟩ := hplaced q hq
    exact absurd ((h.name_of_lacking hlacks).symm.trans hname) h.notBase
  · intro front t back hsplit
    have ht : t ∈ turnsAbove fs base w.patterns w.claims.names qs := by rw [hsplit]; simp
    refine fair_turnsAbove hplaced (fun q hq d name h hname => ?_) ht
    obtain ⟨m, hm, hall⟩ := htaken q hq d name h hname
    exact ⟨m, by rw [membersOf_append]; exact List.mem_append_left _ hm, hall⟩

/-- A directory on the way whose name is taken has its entry, also when the file has claimed its
own name. -/
lemma Sound.exists_entry (hs : Sound fs base w) (hfull : w.filesOnly = false)
    (hp : Placed fs base p n m.name) (hfree : m.name ∉ w.claims.names) {who : Claimant}
    (hq : q ∈ parentsBelow p base) (h : Placed fs base q d name)
    (htaken : name ∈ (w.claim m.name who).claims.names) :
    ∃ e ∈ w.members, e.name = name ∧ memberAs name d = some e := by
  have hgrows : Grows w (w.claim m.name who) [(m.name, who)] [] :=
    Grows.claim who (Claims.holder?_eq_none_iff.mpr hfree)
  rw [Claims.names, hgrows.claims, List.map_append] at htaken
  rcases List.mem_append.mp htaken with hold | hnew
  · obtain ⟨e, he, rfl⟩ := List.mem_map.mp ((hs.inStep.names name).mpr ⟨h.notBase, hold⟩)
    exact ⟨e, he, rfl, (h.of_entry (hs.origin hfull) he).member⟩
  · obtain rfl : name = m.name := List.mem_singleton.mp hnew
    exact absurd (hp.eq_of_name h ▸ hq) hp.notMem_parentsBelow

/-- **A file that is given** adds its turn, after those of the directories above it if it is let
in. -/
theorem addFile_books (hb : Books fs base patterns filesOnly start before w)
    (hs : Sound fs base w) (hp : Sighted fs base p n) (hrun : addFile fs p base n w = .ok k v) :
    ∃ above fate, Books fs base patterns filesOnly start
        (before ++ (above ++ [⟨.visited p n, fate⟩])) v
      ∧ above.map Turn.stop = if filesOnly = false ∧ fate.member?.isSome then
          (directoriesAt fs (parentsBelow p base)).map fun v => .implied v.1 v.2
        else [] := by
  rcases accept_cases hp w with ⟨fate, u, haccept, hpassed⟩ | ⟨path, kind, hadmits⟩
  · rw [addFile_of_accept haccept] at hrun
    obtain ⟨-, rfl⟩ := EStateM.Result.ok.inj hrun
    refine ⟨[], fate, hb.passedOver hs.inStep hp hpassed, ?_⟩
    have hno : fate.member? = none := by cases hpassed <;> rfl
    simp [hno]
  · have hother := hadmits.ne_base hp
    have hpass := hadmits.passes
    have hn := hadmits.not_locked_of_addFile hp.lstat hrun
    rw [hb.filters, hb.mode] at hpass
    have hmode := hb.mode
    cases filesOnly with
    | true =>
      obtain ⟨t, m, ht, hm, hwrite⟩ := hadmits.exists_write hp.lstat hn
      obtain ⟨e, hwrite⟩ := hwrite (claimedBy w p path kind) hb.sink
      rw [hadmits.addFile_eq ht, if_pos hmode] at hrun
      have hparents : addParents fs base [] (claimedBy w p path kind)
        = .ok 0 (claimedBy w p path kind) := rfl
      rw [bind_of_ok hparents, bind_of_ok hwrite] at hrun
      obtain ⟨-, rfl⟩ := EStateM.Result.ok.inj hrun
      rw [hmode] at hm
      exact ⟨[], _, (hb.claim hadmits.notBase hadmits.free _).write hp hother hpass hm e, by simp⟩
    | false =>
      obtain ⟨t, m', ht, -⟩ := hadmits.exists_write hp.lstat hn
      have hentry := hadmits.entryOf ht
      rw [hmode] at hentry
      obtain ⟨m, hm⟩ := hentry.exists_wanted
      have hplaced : Placed fs base p n m.name := ⟨hp, hm.named, hm.notBase⟩
      have hfree : m.name ∉ w.claims.names := by
        have hpath : path = m.name := Naming.named.inj (hpass.named.symm.trans hm.named)
        rw [← hpath, ← nameIn_of_full hmode path]
        exact hadmits.free
      obtain ⟨k', w₁, e, hfile, hfills⟩ :=
        addFile_fills (hs.truthful hmode) hb.sink hp hn hm hfree
      obtain ⟨-, rfl⟩ := EStateM.Result.ok.inj (hrun.symm.trans hfile)
      have habove := (hb.claim hm.notBase hfree _).above hfills
        (fun _ => hplaced.exists_of_mem_parentsBelow) fun q hq d name h htaken => by
          rw [← hb.entries]
          exact hs.exists_entry hmode hplaced hfree hq h htaken
      have hwanted : Passes patterns false base p n m.name m.kind := hb.filters ▸ hm.passes
      have hbooks := habove.write hp hother hwanted hm.member e
      rw [List.append_assoc] at hbooks
      refine ⟨_, _, hbooks, ?_⟩
      rw [if_pos ⟨rfl, rfl⟩, turnsAbove, List.map_map]
      rfl

end DeployClient.Archive
