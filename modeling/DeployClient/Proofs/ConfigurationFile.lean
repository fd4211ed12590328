import DeployClient.Proofs.Credentials
import DeployClient.Proofs.LaxerReaders
import DeployClient.Proofs.StraightPaths

/-!
Which file a configuration is read from.

An absolute path is looked at, and nothing else. A relative path is looked for in the current
directory and then in those above it, so another file may be read than the one that a login writes,
unless that one is there or there is none further up. Where loading looks at the path itself, the
configuration depends on the file at the path only, and a login changes nothing but the credentials.
-/

namespace DeployClient.FileSystem

open DeployClient.Path (IsName ofNames)
open Bytes (slash dot)

variable {fs fs' : FileSystem} {links : ℕ} {slashed : Bool} {names front rest : List Bytes}
  {d : Node} {p : Path}

/-! ### Paths seen from the root -/

/-- A name that a system takes for an entry. -/
structure IsEntryName (name : Bytes) : Prop where
  isName : IsName name
  text : 0 ∉ name
  length : name.length ≤ maxName

/-- Steps down along directories that may be searched can be taken at once. -/
lemma resolveFrom_down (hfront : ∀ m ∈ front, IsEntryName m)
    (habove : ∀ init, init <+: front → init ≠ front → fs.isPlace (names ++ init) = true)
    (hat : fs.nodeAt? (names ++ front) = some d) (hd : d.isDirectory = true) :
    fs.resolveFrom .follow links slashed names (front ++ rest)
      = fs.resolveFrom .follow links slashed (names ++ front) rest := by
  induction front generalizing names with
  | nil => simp
  | cons part front ih =>
    have hpart := hfront part List.mem_cons_self
    have hassoc : names ++ part :: front = names ++ [part] ++ front := by simp
    rw [hassoc] at hat ⊢
    have hdescend : (fs.nodeAt? (names ++ [part])).bind (Node.descend? front) = some d := by
      rw [← hat, nodeAt?, nodeAt?, Node.descend?_append (names ++ [part])]
    obtain ⟨k, hk, hbelow⟩ := Option.bind_eq_some_iff.mp hdescend
    have hplace : fs.isPlace names = true := by
      simpa using habove [] (List.nil_prefix) (by simp)
    -- what the step leads to is a directory, as it has entries or is the last
    have hkdir : k.isDirectory = true := by
      cases front with
      | nil => exact Option.some.inj hbelow ▸ hd
      | cons name front =>
        obtain ⟨m, hm, -⟩ := Option.bind_eq_some_iff.mp hbelow
        exact isDirectory_of_entry? hm
    rw [List.cons_append, resolveFrom_cons, if_neg (by simp [hplace]), if_neg (by simp),
      if_neg hpart.isName.2.2.1, if_neg hpart.isName.2.2.2, if_neg (Nat.not_lt.mpr hpart.length),
      hk]
    cases k with
    | directory stamp entries =>
      simp only [Node.isDirectory, Bool.not_true, Bool.false_eq_true, false_and, if_false]
      refine ih (fun m hm => hfront m (List.mem_cons_of_mem _ hm)) (fun init hinit hne => ?_) hat
      rw [List.append_assoc, List.singleton_append]
      exact habove (part :: init) (List.cons_prefix_cons.mpr ⟨rfl, hinit⟩) (by simpa using hne)
    | _ => simp [Node.isDirectory] at hkdir

/-- The current directory is there, the names that lead to it are taken by the system, and the
directories above it may be searched. -/
structure AtHome (fs : FileSystem) : Prop where
  place : ∃ d, fs.nodeAt? fs.cwd = some d ∧ d.isDirectory = true
  names : ∀ name ∈ fs.cwd, IsEntryName name
  above : ∀ front, front <+: fs.cwd → front ≠ fs.cwd → fs.isPlace front = true

/-- A relative path, as it is joined to the current directory. -/
def fromRoot (fs : FileSystem) (p : Path) : Path := (ofNames true fs.cwd).join p

lemma AtHome.exists_bytes_fromRoot (h : AtHome fs) (hrel : p.isAbsolute = false) :
    ∃ head, (fs.fromRoot p).bytes = head ++ p.bytes ∧ 0 ∉ head := by
  have htext : 0 ∉ (ofNames true fs.cwd).bytes := by
    intro hzero
    rcases List.mem_cons.mp hzero with hzero | hzero
    · exact absurd hzero (by decide)
    · rcases Path.mem_joinNames hzero with hzero | ⟨name, hname, hzero⟩
      · exact absurd hzero (by decide)
      · exact (h.names name hname).text hzero
  rw [fromRoot, Path.join, hrel, if_neg (by simp)]
  split
  · exact ⟨_, rfl, htext⟩
  · refine ⟨(ofNames true fs.cwd).bytes ++ [slash], by simp, fun hzero => ?_⟩
    rcases List.mem_append.mp hzero with hzero | hzero
    · exact htext hzero
    · exact absurd (List.mem_singleton.mp hzero) (by decide)

lemma stat_fromRoot (h : AtHome fs) (hrel : p.isAbsolute = false) (hne : p.bytes ≠ [])
    (hlength : (fs.fromRoot p).bytes.length < maxPath) : fs.stat (fs.fromRoot p) = fs.stat p := by
  obtain ⟨d, hcwd, hd⟩ := h.place
  have hnames : ∀ name ∈ fs.cwd, IsName name := fun name hname => (h.names name hname).isName
  obtain ⟨head, hbytes, htext⟩ := h.exists_bytes_fromRoot hrel
  have hsteps : steps (fs.fromRoot p).bytes = fs.cwd ++ steps p.bytes := Path.steps_join hnames hrel
  have hlast : endsWithSlash (fs.fromRoot p).bytes = endsWithSlash p.bytes := by
    rw [endsWithSlash, endsWithSlash, hbytes, List.getLast?_append_of_ne_nil _ hne]
  have habs : (fs.fromRoot p).isAbsolute = true :=
    Path.isAbsolute_join (Path.isAbsolute_ofNames fs.cwd)
  have hresolve : fs.resolve .follow (fs.fromRoot p) = fs.resolve .follow p := by
    by_cases hzero : 0 ∈ p.bytes
    · have hzero' : 0 ∈ (fs.fromRoot p).bytes := hbytes ▸ List.mem_append_right head hzero
      rw [resolve, resolve, if_pos (by simpa using hzero'), if_pos (by simpa using hzero)]
    · have htakes : Takes p := by
        refine ⟨hzero, hne, ?_⟩
        rw [hbytes, List.length_append] at hlength
        omega
      have htakes' : Takes (fs.fromRoot p) := by
        refine ⟨?_, ?_, hlength⟩
        · rw [hbytes, List.mem_append]
          exact not_or.mpr ⟨htext, hzero⟩
        · simp [hbytes, hne]
      rw [resolve_of_takes htakes, resolve_of_takes htakes', habs, hrel, hsteps, hlast]
      exact resolveFrom_down h.names (by simpa using h.above) hcwd hd
  rw [stat, stat, FileSystem.node, FileSystem.node, hresolve]

end DeployClient.FileSystem

namespace DeployClient.Settings

open Toml (Entries Value)

variable {fs fs' done : FileSystem} {env : Environment} {path p : Path} {c : Config}
  {target token : String} {es : Entries}

/-! ### Configurations from files -/

/-- What the regular file at a path says, if there is one. -/
def fileText? (fs : FileSystem) (p : Path) : Option (Except IoError String) :=
  if fs.isFile p then some (fs.readText p) else none

/-- The configuration that a file alone gives. -/
def configOf : Option (Except IoError String) → Except Error Config
  | none => .ok Config.default
  | some (.error e) => .error (.unreadable (.file e))
  | some (.ok text) =>
    match Toml.read? loadingDialect text with
    | some es => (Config.ofEntries es).mapError .unreadable
    | none => .error (.unreadable .text)

lemma fileText?_congr {q : Path} (h : fs.stat p = fs.stat q) :
    fileText? fs p = fileText? fs q := by
  have hread : fs.read p = fs.read q := by
    rw [FileSystem.read, FileSystem.read, FileSystem.openNode, FileSystem.openNode, h]
  rw [fileText?, fileText?, FileSystem.isFile, FileSystem.isFile, FileSystem.readText,
    FileSystem.readText, h, hread]

lemma load_eq_configOf (henv : env.IsForeign) :
    Config.load fs env path = configOf ((Config.find? fs path).map fs.readText) := by
  simp only [Config.load, Config.fileEntries, combine_of_isForeign henv]
  cases Config.find? fs path with
  | none => rfl
  | some p =>
    dsimp only [Option.map_some]
    cases fs.readText p with
    | error e => rfl
    | ok text =>
      dsimp only [configOf]
      cases Toml.read? loadingDialect text <;> rfl

/-! ### Relative paths -/

lemma isFile_iff : fs.isFile p = true ↔ ∃ n, fs.stat p = .ok n ∧ n.isFile = true := by
  unfold FileSystem.isFile
  split
  · next n hn => simp [hn]
  · next e he => simp [he]

lemma searchUp?_eq_find? (fs : FileSystem) (path : Path) (dirs : List Path) :
    Config.searchUp? fs path dirs
      = (dirs.find? fun dir => fs.isFile (dir.join path)).map (·.join path) := by
  induction dirs with
  | nil => rfl
  | cons dir dirs ih =>
    rw [Config.searchUp?, List.find?_cons]
    split
    · next h => rw [h]; rfl
    · next h => rw [ih, eq_false_of_ne_true h]

/-- The directories in which a relative path is looked for: none if the current one is gone. -/
def searched (fs : FileSystem) : List Path :=
  match fs.currentDir with
  | .ok cwd => cwd :: cwd.parents
  | .error _ => []

lemma find?_of_relative (hrel : path.isAbsolute = false) : Config.find? fs path
    = ((searched fs).find? fun dir => fs.isFile (dir.join path)).map (·.join path) := by
  rw [Config.find?, hrel, if_neg (by simp), searched]
  cases fs.currentDir with
  | error e => rfl
  | ok cwd => exact searchUp?_eq_find? fs path _

lemma find?_of_searched {dir : Path} {before after : List Path} (hrel : path.isAbsolute = false)
    (hdirs : searched fs = before ++ dir :: after)
    (hbefore : ∀ d ∈ before, fs.isFile (d.join path) = false)
    (hdir : fs.isFile (dir.join path) = true) : Config.find? fs path = some (dir.join path) := by
  have hnone : (before.find? fun d => fs.isFile (d.join path)) = none :=
    List.find?_eq_none.mpr fun d hd => by simp [hbefore d hd]
  rw [find?_of_relative hrel, hdirs, List.find?_append, hnone, Option.none_or,
    List.find?_cons, hdir]
  rfl

/-- A relative path can be joined to the current directory. -/
def Joins (fs : FileSystem) (path : Path) : Prop :=
  fs.AtHome ∧ (fs.fromRoot path).bytes.length < FileSystem.maxPath

/-- Loading looks at the path itself: it is absolute, or there is a file that is found when the
path is joined to the current directory, or there is no file to be found anywhere. -/
def LooksAt (fs : FileSystem) (path : Path) : Prop :=
  path.isAbsolute = true ∨ Joins fs path ∧ fs.isFile path = true
    ∨ fs.isFile path = false ∧ ∀ dir ∈ searched fs, fs.isFile (dir.join path) = false

/-- A file that is there is found in the current directory. -/
lemma map_readText_find?_of_joins (hrel : path.isAbsolute = false) (h : Joins fs path)
    (hfile : fs.isFile path = true) :
    (Config.find? fs path).map fs.readText = fileText? fs path := by
  obtain ⟨hhome, hlength⟩ := h
  obtain ⟨n, hn, hisFile⟩ := isFile_iff.mp hfile
  obtain ⟨ns, hresolve⟩ := FileSystem.stat_eq_ok_iff.mp hn
  have hne : path.bytes ≠ [] := (FileSystem.takes_of_resolve hresolve).nonempty
  have hstat : fs.stat (fs.fromRoot path) = fs.stat path :=
    FileSystem.stat_fromRoot hhome hrel hne hlength
  have hjoined : fs.isFile (fs.fromRoot path) = true := isFile_iff.mpr ⟨n, hstat ▸ hn, hisFile⟩
  obtain ⟨d, hd, -⟩ := hhome.place
  have hdirs : searched fs
      = [] ++ Path.ofNames true fs.cwd :: (Path.ofNames true fs.cwd).parents := by
    rw [searched, FileSystem.currentDir, hd, List.nil_append]
  have hfind : Config.find? fs path = some (fs.fromRoot path) :=
    find?_of_searched hrel hdirs (by simp) hjoined
  rw [hfind, Option.map_some, ← fileText?_congr hstat, fileText?, if_pos hjoined]

lemma map_readText_find? (h : LooksAt fs path) :
    (Config.find? fs path).map fs.readText = fileText? fs path := by
  by_cases habs : path.isAbsolute = true
  · rw [Config.find?, if_pos habs, fileText?]
    split <;> rfl
  · have hrel : path.isAbsolute = false := by simpa using habs
    rcases h.resolve_left habs with ⟨hjoins, hfile⟩ | ⟨hfile, hnone⟩
    · exact map_readText_find?_of_joins hrel hjoins hfile
    · have hfind : ((searched fs).find? fun dir => fs.isFile (dir.join path)) = none :=
        List.find?_eq_none.mpr fun dir hdir => by simp [hnone dir hdir]
      rw [find?_of_relative hrel, hfind, fileText?, if_neg (by simp [hfile])]
      rfl

/-- **Where loading looks at the path itself, the file there is all that counts.** -/
theorem load_of_looksAt (henv : env.IsForeign) (h : LooksAt fs path) :
    Config.load fs env path = configOf (fileText? fs path) := by
  rw [load_eq_configOf henv, map_readText_find? h]

/-- **A relative path leads to the nearest file**, be it in the current directory or above it. -/
theorem load_of_searched {dir : Path} {before after : List Path} (henv : env.IsForeign)
    (hrel : path.isAbsolute = false) (hdirs : searched fs = before ++ dir :: after)
    (hbefore : ∀ d ∈ before, fs.isFile (d.join path) = false)
    (hdir : fs.isFile (dir.join path) = true) :
    Config.load fs env path = configOf (some (fs.readText (dir.join path))) := by
  rw [load_eq_configOf henv, find?_of_searched hrel hdirs hbefore hdir, Option.map_some]

/-! ### Logging in -/

/-- The file that a login leaves says what it was made from. -/
abbrev ReadsBack (target token : String) (es : Entries) : Prop :=
  Toml.read? loadingDialect (Toml.render (withCredentials target token es))
    = some (withCredentials target token es)

lemma readsBack_of_legible (hes : storedEntries fs path = .ok es)
    (hs : Toml.entriesAreSimple es = true) (hl : OthersLegible loadingDialect es) :
    ReadsBack target token es := by
  obtain ⟨hsorted, horderly⟩ := orderly_of_storedEntries hes
  exact (carriesOver_withCredentials target token hsorted).read?_render (by decide) horderly hs hl

lemma isFile_of_readText {text : String} (h : fs.readText p = .ok text) : fs.isFile p = true := by
  rw [FileSystem.readText] at h
  cases hread : fs.read p with
  | error e => simp [hread] at h
  | ok data =>
    obtain ⟨ns, stamp, hto, -⟩ := FileSystem.exists_file_of_read hread
    exact FileSystem.isFile_of_resolve hto

/-- A text that is loaded has been read, and so has its level. -/
lemma exists_loggingLevel?_of_configOf {text : String}
    (h : configOf (some (.ok text)) = .ok c) :
    ∃ es, Toml.read? loadingDialect text = some es
      ∧ loggingLevel? (Toml.lookup? "logging" es) = some c.level := by
  rw [configOf] at h
  split at h
  · next es hread =>
    refine ⟨es, hread, ?_⟩
    cases hentries : Config.ofEntries es with
    | error f => simp [hentries, Except.mapError] at h
    | ok c' =>
      rw [hentries] at h
      obtain rfl := Except.ok.inj h
      exact (ofEntries_eq_ok_iff.mp hentries).1
  · simp at h

/-- The level that was loaded is the one that is stored, if that is no date. -/
lemma loggingLevel?_of_load (henv : env.IsForeign) (h : LooksAt fs path)
    (hload : Config.load fs env path = .ok c) (hes : storedEntries fs path = .ok es)
    (hmoment : ∀ m, Toml.lookup? "logging" es ≠ some (.moment m)) :
    loggingLevel? (Toml.lookup? "logging" es) = some c.level := by
  have hwithin : loadingDialect.IsWithin storingDialect := ⟨by decide, by decide⟩
  rw [load_of_looksAt henv h, fileText?] at hload
  rw [storedEntries] at hes
  cases htext : fs.readText path with
  | ok text =>
    rw [if_pos (isFile_of_readText htext), htext] at hload
    rw [htext] at hes
    obtain ⟨es₁, hread₁, hlevel⟩ := exists_loggingLevel?_of_configOf hload
    have hread : Toml.read? storingDialect text = some es := by
      dsimp only at hes
      split at hes
      · next es' hread => rw [hread, Except.ok.inj hes]
      · simp at hes
    exact loggingLevel?_of_read? hwithin rfl hread₁ hread hmoment hlevel
  | error e =>
    rw [htext] at hes hload
    obtain rfl : [] = es := by
      dsimp only at hes
      split at hes
      · exact Except.ok.inj hes
      · simp at hes
    -- a file that is there and cannot be read is not loaded
    have hdefault : Config.default = c := by
      split at hload
      · simp [configOf] at hload
      · exact Except.ok.inj hload
    rw [← hdefault]
    rfl

lemma Joins.startsFrom (h : Joins fs path) : fs.StartsFrom path := by
  obtain ⟨d, hd, -⟩ := h.1.place
  refine .inr ?_
  rw [hd]
  rfl

lemma joins_of_write (h : Joins fs path)
    (hwrite : writeCredentials fs path target token = (.ok (), done)) : Joins done path := by
  obtain ⟨⟨⟨d, hd, hdir⟩, hnames, habove⟩, hlength⟩ := h
  obtain ⟨es, made, -, hgrows, hmade⟩ := exists_write_of_ok hwrite
  obtain ⟨place, stamp, -, hputs⟩ := FileSystem.exists_puts_of_write hmade
  have hkeeps := hgrows.keepsWays
  have hkeeps' := hputs.keepsWays
  have hcwd : done.cwd = fs.cwd := hkeeps'.cwd.trans hkeeps.cwd
  obtain ⟨d', hd', hsame⟩ := hkeeps.directory _ d hd hdir
  obtain ⟨d'', hd'', hsame'⟩ := hkeeps'.directory _ d' hd' hsame.new
  refine ⟨⟨⟨d'', hcwd.symm ▸ hd'', hsame'.new⟩, hcwd.symm ▸ hnames, fun front hfront hne => ?_⟩, ?_⟩
  · rw [hcwd] at hfront hne
    have hplace := habove front hfront hne
    have hsome := FileSystem.isSome_of_isPlace hplace hne
    have hplace' := hkeeps.isPlace hsome hplace
    refine hkeeps'.isPlace (FileSystem.isSome_of_isPlace hplace' ?_) hplace'
    rwa [hkeeps.cwd]
  · rwa [FileSystem.fromRoot, hcwd]

/-- **After a login the file at the path is looked at**, and says what was written. -/
theorem looksAt_of_write (h : path.isAbsolute = true ∨ Joins fs path)
    (hes : storedEntries fs path = .ok es)
    (hwrite : writeCredentials fs path target token = (.ok (), done)) :
    LooksAt done path ∧ (¬ FoundLocked fs done path →
      fileText? done path = some (.ok (Toml.render (withCredentials target token es)))) := by
  have hstarts : fs.StartsFrom path := h.elim .inl Joins.startsFrom
  obtain ⟨hfile, htext⟩ := readText_of_ok hstarts hes hwrite
  refine ⟨h.imp_right fun hjoins => .inl ⟨joins_of_write hjoins hwrite, hfile⟩, fun hopen => ?_⟩
  rw [fileText?, if_pos hfile, htext hopen]

lemma ofEntries_withCredentials {level : Level} (hes : storedEntries fs path = .ok es)
    (hlevel : loggingLevel? (Toml.lookup? "logging" es) = some level) :
    Config.ofEntries (withCredentials target token es)
      = .ok ⟨some target, some token, level⟩ := by
  have hcarries := carriesOver_withCredentials target token (orderly_of_storedEntries hes).1
  rw [ofEntries_eq_ok_iff, hcarries.target, hcarries.token,
    hcarries.other "logging" (by decide) (by decide)]
  exact ⟨hlevel, rfl, rfl⟩

/-! ### Files of one name -/

/-- A file system with the current directory `/w`. -/
def inDirectory (own above : List (Bytes × Node)) : FileSystem :=
  ⟨.directory ⟨0o755, 0, .root⟩ (([119], .directory ⟨0o755, 0, .root⟩ own) :: above), [[119]], 0,
    .root⟩

/-- A directory with the one file `c`. -/
def oneFile (text : String) : List (Bytes × Node) :=
  [([99], .file ⟨0o644, 0, .root⟩ (Bytes.ofText text))]

lemma joins_inDirectory (own above : List (Bytes × Node)) :
    Joins (inDirectory own above) ⟨[99]⟩ := by
  refine ⟨⟨⟨_, rfl, rfl⟩, fun name hname => ?_, fun front hfront hne => ?_⟩,
    (by decide : 4 < FileSystem.maxPath)⟩
  · obtain rfl := List.mem_singleton.mp hname
    exact ⟨by decide, by decide, by decide⟩
  · have hnil : front <+: [] := (List.prefix_concat_iff.mp hfront).resolve_left hne
    obtain rfl := List.prefix_nil.mp hnil
    rfl

/-! ### The file that counts -/

/-- **What is loaded is what the file at the path says**, if loading looks at that path. Without a
file there, that is the default configuration; so two file systems that agree on the file give the
same configuration, and a login changes nothing but the credentials, provided that what it writes
can be read. A relative path leads to the nearest file in the current directory or above it, so
loading looks at the path itself if there is a file, or none further up. -/
theorem loaded_from_path (env : Environment) (path : Path) (henv : env.IsForeign) :
    (∀ fs, LooksAt fs path → Config.load fs env path = configOf (fileText? fs path)
      ∧ (fs.isFile path = false → Config.load fs env path = .ok Config.default))
    ∧ (∀ fs fs', LooksAt fs path → LooksAt fs' path → fileText? fs path = fileText? fs' path →
      Config.load fs env path = Config.load fs' env path)
    ∧ (∀ fs before dir after, path.isAbsolute = false → searched fs = before ++ dir :: after →
      (∀ d ∈ before, fs.isFile (d.join path) = false) → fs.isFile (dir.join path) = true →
      Config.load fs env path = configOf (some (fs.readText (dir.join path))))
    ∧ ∀ fs done target token, path.isAbsolute = true ∨ Joins fs path →
      writeCredentials fs path target token = (.ok (), done) →
      ∃ es, storedEntries fs path = .ok es ∧ LooksAt done path
        ∧ (¬ FoundLocked fs done path →
          fileText? done path = some (.ok (Toml.render (withCredentials target token es))))
        ∧ (∀ c, ¬ FoundLocked fs done path → LooksAt fs path → Config.load fs env path = .ok c →
          ReadsBack target token es → (∀ m, Toml.lookup? "logging" es ≠ some (.moment m)) →
          Config.load done env path = .ok ⟨some target, some token, c.level⟩)
        ∧ (Toml.entriesAreSimple es = true → OthersLegible loadingDialect es →
          ReadsBack target token es) := by
  refine ⟨fun fs h => ?_, fun fs fs' h h' htext => ?_, fun fs before dir after => ?_,
    fun fs done target token h hwrite => ?_⟩
  · have hload := load_of_looksAt henv h
    refine ⟨hload, fun hfile => ?_⟩
    rw [hload, fileText?, if_neg (by simp [hfile])]
    rfl
  · rw [load_of_looksAt henv h, load_of_looksAt henv h', htext]
  · exact load_of_searched henv
  · obtain ⟨es, -, hes, -⟩ := exists_write_of_ok hwrite
    obtain ⟨hlooks, htext⟩ := looksAt_of_write h hes hwrite
    refine ⟨es, hes, hlooks, htext, fun c hopen hbefore hload hback hmoment => ?_,
      readsBack_of_legible hes⟩
    have hlevel := loggingLevel?_of_load henv hbefore hload hes hmoment
    rw [load_of_looksAt henv hlooks, htext hopen]
    simp only [configOf, hback, ofEntries_withCredentials hes hlevel, Except.mapError]

/-- A file of the same name further up makes no difference. -/
theorem loaded_from_path_own :
    let path : Path := ⟨[99]⟩
    let env : Environment := [("HOME", "/")]
    let own := oneFile "token = \"own\"\n[logging]\nlevel = \"info\"\n"
    let fs := inDirectory own (oneFile "token = \"x\"\n")
    let done := (writeCredentials fs path "https://p" "t").2
    env.IsForeign ∧ Config.load fs env path = .ok ⟨none, some "own", .info⟩
      ∧ Config.load fs env path = Config.load (inDirectory own []) env path
      ∧ Config.load done env path = .ok ⟨some "https://p", some "t", .info⟩ := by
  intro path env own fs done
  have henv : env.IsForeign := by
    unfold Environment.IsForeign
    decide
  have hjoins : Joins fs path := joins_inDirectory own _
  have hlooks : LooksAt fs path := .inr (.inl ⟨hjoins, by decide +kernel⟩)
  have hlooks' : LooksAt (inDirectory own []) path :=
    .inr (.inl ⟨joins_inDirectory own [], by decide +kernel⟩)
  obtain ⟨hload, hagree, -, hlogin⟩ := loaded_from_path env path henv
  have hbefore : Config.load fs env path = .ok ⟨none, some "own", .info⟩ := by
    rw [(hload fs hlooks).1]
    decide +kernel
  have hok : (writeCredentials fs path "https://p" "t").1 = .ok () := by decide +kernel
  have hwrite : writeCredentials fs path "https://p" "t" = (.ok (), done) := by
    rw [← hok]
  obtain ⟨es, hes, -, -, hafter, hlegible⟩ := hlogin fs done "https://p" "t" (.inr hjoins) hwrite
  have hstored : (match storedEntries fs path with
      | .ok es => decide (Toml.entriesAreSimple es = true ∧ OthersLegible loadingDialect es
          ∧ loggingLevel? (Toml.lookup? "logging" es) = some .info)
      | .error _ => false) = true := by decide +kernel
  rw [hes] at hstored
  obtain ⟨hsimple, hothers, hlevel⟩ := of_decide_eq_true hstored
  have hopen : ¬ FoundLocked fs done path := fun h => Bool.noConfusion h.not_isPrivileged
  have hmoment : ∀ m, Toml.lookup? "logging" es ≠ some (.moment m) := by
    intro m hm
    simp [hm, loggingLevel?] at hlevel
  exact ⟨henv, hbefore, hagree _ _ hlooks hlooks' (by decide +kernel),
    hafter _ hopen hlooks hbefore (hlegible hsimple hothers) hmoment⟩

/-- Where there is no file, one further up is loaded, with the token and the address that it has.
Two file systems that agree on the path give different configurations then, and a login changes
more than the credentials. -/
theorem loaded_from_file_above :
    let path : Path := ⟨[99]⟩
    let fs := inDirectory [] (oneFile "token = \"x\"\n[logging]\nlevel = \"info\"\n")
    let done := (writeCredentials fs path "https://p" "t").2
    fs.isFile path = false ∧ fileText? fs path = fileText? (inDirectory [] []) path
      ∧ Config.load fs [] path = .ok ⟨none, some "x", .info⟩
      ∧ Config.load (inDirectory [] []) [] path = .ok Config.default
      ∧ (writeCredentials fs path "https://p" "t").1 = .ok ()
      ∧ Config.load done [] path = .ok ⟨some "https://p", some "t", .warn⟩ := by
  decide +kernel

end DeployClient.Settings
