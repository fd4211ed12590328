import DeployClient.Commands.Login
import DeployClient.Proofs.ActionEnds
import DeployClient.Proofs.ReadValues
import DeployClient.Proofs.TableText
import DeployClient.Proofs.WrittenFiles

/-!
Logging in keeps the configuration.

The file is read, two of its entries are replaced, and it is written again. What is written can be
read if it is legible, and then it says what the file said before, but for the credentials. If
anything goes wrong on the way, every file is what it was.
-/

namespace DeployClient.Settings

open Toml (Entries Value Sorted Dialect)
open FileSystem (Grows StartsFrom)

variable {fs done : FileSystem} {path : Path} {target token key : String} {es es' : Entries}
  {env : Environment} {d : Dialect} {e : Error} {level : Level}

/-! ### The entries -/

/-- The entries of a configuration with these credentials, and otherwise as they were. -/
structure CarriesOver (target token : String) (es es' : Entries) : Prop where
  sorted : Sorted es'
  target : Toml.lookup? "target" es' = some (.string target)
  token : Toml.lookup? "token" es' = some (.string token)
  other : ∀ key, key ≠ "target" → key ≠ "token" → Toml.lookup? key es' = Toml.lookup? key es

lemma carriesOver_withCredentials (target token : String) (hes : Sorted es) :
    CarriesOver target token es (withCredentials target token es) where
  sorted := Toml.sorted_insert (Toml.sorted_insert hes)
  target := by
    rw [withCredentials, Toml.lookup?_insert_of_ne (by decide), Toml.lookup?_insert_self]
  token := Toml.lookup?_insert_self
  other key htarget htoken := by
    rw [withCredentials, Toml.lookup?_insert_of_ne htoken, Toml.lookup?_insert_of_ne htarget]

/-- The values besides the credentials can be read back. -/
def OthersLegible (d : Dialect) (es : Entries) : Prop :=
  ∀ e ∈ es, e.1 ≠ "target" → e.1 ≠ "token" → e.2.isLegibleUnder d 1 = true

instance (d : Dialect) (es : Entries) : Decidable (OthersLegible d es) :=
  inferInstanceAs (Decidable (∀ e ∈ es, e.1 ≠ "target" → e.1 ≠ "token" → _))

lemma othersLegible_of_shallow {n : Nat} (hn : n + 1 < d.depthBound)
    (h : ∀ e ∈ es, e.2.Shallow n) : OthersLegible d es :=
  fun e he _ _ => (h e he).isLegibleUnder hn

namespace CarriesOver

/-- What holds of strings and of the values besides the credentials holds of all values. -/
lemma forall_mem (h : CarriesOver target token es es') {P : Value → Prop}
    (hstring : ∀ s, P (.string s))
    (hother : ∀ e ∈ es, e.1 ≠ "target" → e.1 ≠ "token" → P e.2) : ∀ e ∈ es', P e.2 := by
  intro e he
  have hlookup := (Toml.lookup?_eq_some_iff h.sorted).mpr he
  by_cases htarget : e.1 = "target"
  · rw [htarget, h.target] at hlookup
    exact Option.some.inj hlookup ▸ hstring target
  · by_cases htoken : e.1 = "token"
    · rw [htoken, h.token] at hlookup
      exact Option.some.inj hlookup ▸ hstring token
    · rw [h.other e.1 htarget htoken] at hlookup
      exact hother _ (Toml.mem_of_lookup? hlookup) htarget htoken

/-- There is one table only that has the credentials and is otherwise as before. -/
lemma unique {es'' : Entries} (h : CarriesOver target token es es')
    (h' : CarriesOver target token es es'') : es'' = es' := by
  have hlookup : ∀ key, Toml.lookup? key es'' = Toml.lookup? key es' := by
    intro key
    by_cases htarget : key = "target"
    · rw [htarget, h'.target, h.target]
    · by_cases htoken : key = "token"
      · rw [htoken, h'.token, h.token]
      · rw [h'.other key htarget htoken, h.other key htarget htoken]
  apply Toml.eq_of_mem_iff h'.sorted h.sorted
  intro e
  rw [← Toml.lookup?_eq_some_iff h'.sorted, hlookup, Toml.lookup?_eq_some_iff h.sorted]

/-- **What is written is read**, if the other values are legible. -/
theorem read?_render (h : CarriesOver target token es es') (hd : d.allows 1 = true)
    (ho : ∀ e ∈ es, e.2.Orderly) (hs : Toml.entriesAreSimple es = true)
    (hl : OthersLegible d es) : Toml.read? d (Toml.render es') = some es' := by
  rw [Toml.entriesAreSimple_iff] at hs
  have horderly := h.forall_mem (P := Value.Orderly) .string fun e he _ _ => ho e he
  have hsimple := h.forall_mem (P := fun v => v.isSimple = true) (fun _ => rfl)
    fun e he _ _ => hs e he
  have hlegible := h.forall_mem (P := fun v => v.isLegibleUnder d 1 = true) (fun _ => rfl) hl
  exact Toml.read?_render hd h.sorted horderly (Toml.entriesAreSimple_iff.mpr hsimple)
    (Toml.entriesAreLegibleUnder_iff.mpr hlegible)

end CarriesOver

/-! ### The file -/

lemma orderly_of_storedEntries (h : storedEntries fs path = .ok es) :
    Sorted es ∧ ∀ e ∈ es, e.2.Orderly := by
  unfold storedEntries at h
  split at h
  · split at h
    · next text entries hread =>
      obtain rfl := Except.ok.inj h
      exact Toml.orderly_of_read? hread
    · simp at h
  · split at h
    · obtain rfl := Except.ok.inj h
      exact ⟨List.Pairwise.nil, by simp⟩
    · simp at h

lemma grows_makeParent (fs : FileSystem) (path : Path) : Grows fs (makeParent fs path).2 := by
  unfold makeParent
  split
  · exact FileSystem.grows_makeAlong fs _
  · exact .refl fs

/-- What a login that goes well has written. -/
lemma exists_write_of_ok (h : writeCredentials fs path target token = (.ok (), done)) :
    ∃ es made, storedEntries fs path = .ok es ∧ Grows fs made
      ∧ made.write path (Bytes.ofText (Toml.render (withCredentials target token es))) 0o644 false
        = (.ok (), done) := by
  unfold writeCredentials at h
  split at h
  · simp at h
  · next es hes =>
    have hgrows := grows_makeParent fs path
    split at h
    · simp at h
    · next made hmade =>
      rw [hmade] at hgrows
      dsimp only at h
      split at h
      · simp at h
      · next hwrite =>
        obtain rfl := (Prod.mk.inj h).2
        exact ⟨es, made, hes, hgrows, hwrite⟩

/-- **A login that fails changes no file.** -/
theorem grows_of_error (h : writeCredentials fs path target token = (.error e, done)) :
    Grows fs done := by
  unfold writeCredentials at h
  split at h
  · obtain rfl := (Prod.mk.inj h).2
    exact .refl fs
  · next es hes =>
    have hgrows := grows_makeParent fs path
    split at h
    · next made hmade =>
      rw [hmade] at hgrows
      obtain rfl := (Prod.mk.inj h).2
      exact hgrows
    · next made hmade =>
      rw [hmade] at hgrows
      dsimp only at h
      split at h
      · next hwrite =>
        obtain rfl := (Prod.mk.inj h).2
        exact FileSystem.eq_of_write_error hwrite ▸ hgrows
      · simp at h

/-- There seemed to be no file, but the directories that were made lead to one. It was there before,
and the process may write it but not read it. -/
structure FoundLocked (fs done : FileSystem) (path : Path) : Prop where
  missing : fs.read path = .error .noEntry
  found : ∃ names stamp stamp' old data, fs.nodeAt? names = some (.file stamp old)
    ∧ stamp.allows fs.caller .read = false
    ∧ done.resolve .follow path = .ok (.taken names (.file stamp' data))

/-- Nothing is kept from a process that may do everything. -/
lemma FoundLocked.not_isPrivileged (h : FoundLocked fs done path) :
    fs.caller.isPrivileged = false := by
  obtain ⟨-, stamp, -, -, -, -, hrefused, -⟩ := h.found
  rw [Stamp.allows, Bool.or_eq_false_iff] at hrefused
  exact hrefused.1

/-- What is stored was read, or there was nothing to be read. -/
lemma read_of_storedEntries (h : storedEntries fs path = .ok es) :
    fs.read path = .error .noEntry ∨ ∃ data, fs.read path = .ok data := by
  rcases hread : fs.read path with os | data
  · left
    have hstored : storedEntries fs path
        = if (IoError.os os).isNotFound then .ok [] else .error (.io (.os os)) := by
      rw [storedEntries, FileSystem.readText, hread]
    rw [hstored] at h
    split at h
    · next hmissing =>
      obtain rfl : os = .noEntry := by simpa [IoError.isNotFound] using hmissing
      rfl
    · simp at h
  · exact .inr ⟨data, rfl⟩

/-- What a login that goes well has left in the file. -/
theorem readText_of_ok (hp : fs.StartsFrom path) (hes : storedEntries fs path = .ok es)
    (h : writeCredentials fs path target token = (.ok (), done)) :
    done.isFile path = true ∧ (¬ FoundLocked fs done path →
      done.readText path = .ok (Toml.render (withCredentials target token es))) := by
  obtain ⟨es', made, hes', hgrows, hwrite⟩ := exists_write_of_ok h
  obtain rfl := Except.ok.inj (hes.symm.trans hes')
  have hmade := hgrows.startsFrom hp
  have hend := FileSystem.writeEnd made path
    (Bytes.ofText (Toml.render (withCredentials target token es))) 0o644 false
  rw [hwrite] at hend
  have htext : ∀ data, done.read path = .ok data →
      data = Bytes.ofText (Toml.render (withCredentials target token es)) →
      done.readText path = .ok (Toml.render (withCredentials target token es)) := by
    rintro data hread rfl
    rw [FileSystem.readText, hread]
    simp
  cases hend with
  | made place node allowed puts =>
    have hfound := puts.resolve_follow hmade place
    have hallows : (made.stamp 0o644).allows done.caller .read = true := by
      rw [puts.caller]
      refine FileSystem.allows_of_isOwnedBy (made.isOwnedBy_stamp 0o644) ?_
      show 0o644 / 64 / 4 % 2 = 1
      decide
    exact ⟨FileSystem.isFile_of_resolve hfound,
      fun _ => htext _ (FileSystem.read_of_resolve hfound hallows) rfl⟩
  | @replaced names stamp old _ place allowed owned puts =>
    have hfound := puts.resolve_follow hmade place
    refine ⟨FileSystem.isFile_of_resolve hfound, fun hlocked => ?_⟩
    cases hallows : stamp.allows made.caller .read with
    | true =>
      refine htext _ (FileSystem.read_of_resolve hfound ?_) rfl
      rwa [puts.caller]
    | false =>
      -- it was not read before, so it did not seem to be there
      have hnode := FileSystem.nodeAt?_of_finds (FileSystem.finds_of_resolve place) rfl
      refine absurd ⟨(read_of_storedEntries hes).resolve_right fun ⟨data, hread⟩ => ?_,
        names, stamp, _, old, _, (hgrows.other _ _ rfl).mp hnode, hgrows.caller ▸ hallows, hfound⟩
        hlocked
      have hbefore := hgrows.read hp hread
      have hto := FileSystem.resolve_follow_of_write hmade place
      obtain ⟨ns, stamp', hto', hallows'⟩ := FileSystem.exists_file_of_read hbefore
      obtain ⟨-, hfile⟩ := Place.taken.inj (Except.ok.inj (hto.symm.trans hto'))
      obtain ⟨rfl, -⟩ := Node.file.inj hfile
      simp [hallows] at hallows'

/-! ### Loading -/

/-- None of the variables belongs to the configuration. -/
def Environment.IsForeign (env : Environment) : Prop :=
  ∀ e ∈ env, ¬ variableStart <+: foldCase e.1.toList

lemma keysOf?_eq_none {name : String} (h : ¬ variableStart <+: foldCase name.toList) :
    keysOf? name = none := by
  unfold keysOf?
  split
  · rfl
  · next rest hrest =>
    have hsome : (variableStart.isPrefixOf? (foldCase name.toList)).isSome = true := by
      rw [hrest]
      rfl
    rw [List.isSome_isPrefixOf?_eq_isPrefixOf] at hsome
    exact absurd (List.isPrefixOf_iff_prefix.mp hsome) h

/-- What a variable adds to the entries. -/
def addVariable (es : Entries) (e : String × String) : Entries :=
  match keysOf? e.1 with
  | some keys => overlayEntries es (nest (valueOf e.2) keys)
  | none => es

lemma environmentEntries_eq_foldl (env : Environment) :
    environmentEntries env = env.foldl addVariable [] := rfl

lemma foldl_addVariable_of_isForeign (h : env.IsForeign) (start : Entries) :
    env.foldl addVariable start = start := by
  induction env with
  | nil => rfl
  | cons e env ih =>
    obtain ⟨hfirst, hrest⟩ := List.forall_mem_cons.mp h
    rw [List.foldl_cons, addVariable, keysOf?_eq_none hfirst]
    exact ih hrest

/-- Without variables of its own the configuration is that of the file. -/
lemma combine_of_isForeign (h : env.IsForeign) (es : Entries) :
    Config.combine es env = Config.ofEntries es := by
  rw [Config.combine, environmentEntries_eq_foldl, foldl_addVariable_of_isForeign h]
  rfl

lemma entry_eq_ok_iff {α : Type} {key : String} {read? : Option Value → Option α} {a : α} :
    entry key read? es = .ok a ↔ read? (Toml.lookup? key es) = some a := by
  unfold entry
  split
  · next h => rw [h, Except.ok.injEq, Option.some.injEq]
  · next h => simp [h]

/-- The entries of a configuration say what it has. -/
lemma ofEntries_eq_ok_iff {c : Config} : Config.ofEntries es = .ok c ↔
    loggingLevel? (Toml.lookup? "logging" es) = some c.level
      ∧ optionalString? (Toml.lookup? "target" es) = some c.target
      ∧ optionalString? (Toml.lookup? "token" es) = some c.token := by
  obtain ⟨target, token, level⟩ := c
  rw [← entry_eq_ok_iff, ← entry_eq_ok_iff, ← entry_eq_ok_iff, Config.ofEntries]
  cases entry "logging" loggingLevel? es with
  | error f => exact iff_of_false nofun fun h => nomatch h.1
  | ok level' =>
    cases entry "target" optionalString? es with
    | error f => exact iff_of_false nofun fun h => nomatch h.2.1
    | ok target' =>
      cases entry "token" optionalString? es with
      | error f => exact iff_of_false nofun fun h => nomatch h.2.2
      | ok token' =>
        simp only [bind, Except.bind, pure, Except.pure, Except.ok.injEq, Config.mk.injEq]
        tauto

/-- **After a login the configuration has the credentials**, and is otherwise what it was. -/
theorem load_of_carriesOver (h : CarriesOver target token es es') (habs : path.isAbsolute = true)
    (hfile : done.isFile path = true) (htext : done.readText path = .ok (Toml.render es'))
    (hread : Toml.read? loadingDialect (Toml.render es') = some es') (henv : env.IsForeign)
    (hlevel : loggingLevel? (Toml.lookup? "logging" es) = some level) :
    Config.load done env path = .ok ⟨some target, some token, level⟩ := by
  have hfind : Config.find? done path = some path := by
    rw [Config.find?, if_pos habs, if_pos hfile]
  have hentries : Config.fileEntries done path = .ok es' := by
    rw [Config.fileEntries, hfind]
    simp only [htext, hread]
  have hcombine : Config.combine es' env = .ok ⟨some target, some token, level⟩ := by
    rw [combine_of_isForeign henv, ofEntries_eq_ok_iff, h.target, h.token,
      h.other "logging" (by decide) (by decide)]
    exact ⟨hlevel, rfl, rfl⟩
  rw [Config.load, hentries, Except.bind, hcombine, Except.mapError]

/-- The address without the slashes at its end. -/
lemma exists_trimSlashes (target : String) :
    ∃ n, target.toList = (Config.trimSlashes target).toList ++ List.replicate n '/'
      ∧ (Config.trimSlashes target).toList.getLast? ≠ some '/' := by
  have htrim : (Config.trimSlashes target).toList
      = (target.toList.reverse.dropWhile (· = '/')).reverse := by
    rw [Config.trimSlashes, String.toList_ofList]
  have hslashes : target.toList.reverse.takeWhile (· = '/')
      = List.replicate (target.toList.reverse.takeWhile (· = '/')).length '/' :=
    List.eq_replicate_iff.mpr ⟨rfl, fun c hc => by simpa using List.mem_takeWhile_imp hc⟩
  refine ⟨(target.toList.reverse.takeWhile (· = '/')).length, ?_, ?_⟩
  · calc target.toList
        = (target.toList.reverse.dropWhile (· = '/')).reverse
            ++ (target.toList.reverse.takeWhile (· = '/')).reverse := by
          rw [← List.reverse_append, List.takeWhile_append_dropWhile, List.reverse_reverse]
      _ = (Config.trimSlashes target).toList
            ++ List.replicate (target.toList.reverse.takeWhile (· = '/')).length '/' := by
          rw [htrim, hslashes, List.reverse_replicate, List.length_replicate]
  · intro hlast
    rw [htrim, List.getLast?_reverse] at hlast
    have hhead := List.head?_dropWhile_not (· = '/') target.toList.reverse
    simp [hlast] at hhead

end DeployClient.Settings

namespace DeployClient.Login

open DeployClient.Action (Ends)
open FileSystem (Grows)

variable {l : Login} {path : Path} {s s' : Session} {e : Error}

/-- **A login that goes well has stored the credentials, and one that fails changes no file.** -/
theorem ends_run (l : Login) (path : Path) (s : Session) : Ends (l.run path) s
    (fun _ s' => Settings.writeCredentials s.fs path l.target l.token = (.ok (), s'.fs))
    (fun s' => Grows s.fs s'.fs) := by
  -- the session is the one before until the files are written
  refine .bind (Q := fun _ s' => s' = s) (.ofExcept (fun _ _ => rfl) fun _ _ => .refl _) ?_
  intro url s' hs
  refine .bind (Q := fun asked s' => asked = s ∧ s' = s) (.get ⟨hs, hs⟩) ?_
  intro asked s' hs
  obtain rfl := hs.1
  rcases hwrite : Settings.writeCredentials asked.fs path l.target l.token with ⟨result, made⟩
  refine .bind (Q := fun _ s' => s'.fs = made) (.modify rfl) ?_
  intro _ s' hmade
  refine .bind (Q := fun _ s' => result = .ok () ∧ s'.fs = made) (.wrap _ (.ofExcept ?_ ?_)) ?_
  · exact fun _ hok => ⟨hok, hmade⟩
  · rintro e rfl
    exact hmade ▸ Settings.grows_of_error hwrite
  · -- what is told afterwards leaves the files alone
    rintro _ s' ⟨rfl, hmade⟩
    refine .bind (Q := fun _ s' => s'.fs = made) (.modify hmade) ?_
    intro _ s' hmade
    exact .modify (show (Except.ok (), made) = (Except.ok (), s'.fs) by rw [hmade])

end DeployClient.Login

namespace DeployClient

open DeployClient.Action (Ends)
open FileSystem (Grows)
open Settings (CarriesOver Config FoundLocked OthersLegible loadingDialect loggingLevel?
  storedEntries storingDialect writeCredentials)

/-- No file is other than it was, and what could be read can be read. -/
def FileSystem.LeftAlone (fs fs' : FileSystem) : Prop :=
  Grows fs fs' ∧ ∀ p data, fs.StartsFrom p → fs.read p = .ok data → fs'.read p = .ok data

lemma FileSystem.Grows.leftAlone {fs fs' : FileSystem} (h : Grows fs fs') : fs.LeftAlone fs' :=
  ⟨h, fun _ _ hp hread => h.read hp hread⟩

/-! ### One file -/

/-- A file system with the one file `/c`. -/
def FileSystem.single (text : String) : FileSystem :=
  ⟨.directory ⟨0o755, 0, .root⟩ [([99], .file ⟨0o644, 0, .root⟩ (Bytes.ofText text))], [], 0, .root⟩

namespace FileSystem

variable {text : String} {es : Toml.Entries}

lemma readText_single (text : String) : (single text).readText ⟨[47, 99]⟩ = .ok text := by
  have hread : (single text).read ⟨[47, 99]⟩ = .ok (Bytes.ofText text) := rfl
  rw [readText, hread]
  simp

lemma storedEntries_single (h : Toml.read? storingDialect text = some es) :
    storedEntries (single text) ⟨[47, 99]⟩ = .ok es := by
  rw [storedEntries, readText_single]
  simp only [h]

lemma storedEntries_single_malformed (h : Toml.read? storingDialect text = none) :
    storedEntries (single text) ⟨[47, 99]⟩ = .error .malformed := by
  rw [storedEntries, readText_single]
  simp only [h]

lemma writeCredentials_single (target token : String)
    (h : Toml.read? storingDialect text = some es) :
    writeCredentials (single text) ⟨[47, 99]⟩ target token
      = (.ok (), single (Toml.render (Settings.withCredentials target token es))) := by
  rw [writeCredentials, storedEntries_single h]
  rfl

lemma fileEntries_single (text : String) :
    Config.fileEntries (single text) ⟨[47, 99]⟩
      = match Toml.read? loadingDialect text with
        | some es => .ok es
        | none => .error .text := by
  have hfind : Config.find? (single text) ⟨[47, 99]⟩ = some ⟨[47, 99]⟩ := rfl
  cases hread : Toml.read? loadingDialect text <;>
    simp only [Config.fileEntries, hfind, readText_single, hread]

end FileSystem

lemma Toml.read?_ofList (d : Dialect) (cs : List Char) : read? d (String.ofList cs)
    = (readLines d (2 * (dropMark cs).length + 2) .empty (dropMark cs)).bind
        (Document.entries? d) := by
  rw [read?, String.toList_ofList]

/-! ### Logging in -/

/-- **Logging in keeps the configuration.** After a login that went well, the file has the
credentials and is otherwise as it was, if the other values are legible for whoever reads it; then
the configuration that is loaded has the token and the address. If anything goes wrong, every file
is left alone. Values are legible if they are nested less deeply than the reader allows and have no
date among their keys. The file can be read, unless the directories that were made lead to one that
is kept from the process. -/
theorem login_keeps_configuration (fs : FileSystem) (path : Path) (l : Login) :
    (∀ es done, fs.StartsFrom path → storedEntries fs path = .ok es →
      Toml.entriesAreSimple es = true →
      writeCredentials fs path l.target l.token = (.ok (), done) →
      ∃ es', CarriesOver l.target l.token es es'
        ∧ (∀ es'', CarriesOver l.target l.token es es'' → es'' = es')
        ∧ (¬ FoundLocked fs done path → OthersLegible storingDialect es →
            storedEntries done path = .ok es')
        ∧ (¬ FoundLocked fs done path → OthersLegible loadingDialect es → path.isAbsolute = true →
            ∀ (env : Settings.Environment) (level : Level), env.IsForeign →
            loggingLevel? (Toml.lookup? "logging" es) = some level →
            ∃ c, Config.load done env path = .ok c ∧ c.level = level
              ∧ c.requireToken = .ok l.token
              ∧ ∀ p, c.url p = .ok (Config.trimSlashes l.target ++ p))
        ∧ (Config.trimSlashes l.target).toList.getLast? ≠ some '/'
        ∧ ∃ n, l.target.toList
            = (Config.trimSlashes l.target).toList ++ List.replicate n '/')
    ∧ (∀ e done, writeCredentials fs path l.target l.token = (.error e, done) → fs.LeftAlone done)
    ∧ (∀ s : Session, s.fs = fs → Ends (l.run path) s
        (fun _ s' => writeCredentials fs path l.target l.token = (.ok (), s'.fs))
        (fun s' => fs.LeftAlone s'.fs))
    ∧ ∀ (d : Toml.Dialect) (es : Toml.Entries) (n : Nat), n + 1 < d.depthBound →
        (∀ e ∈ es, e.2.Shallow n) → OthersLegible d es := by
  refine ⟨?_, fun e done h => (Settings.grows_of_error h).leftAlone, ?_,
    fun d es n => Settings.othersLegible_of_shallow⟩
  · intro es done hpath hes hsimple hdone
    obtain ⟨hsorted, horderly⟩ := Settings.orderly_of_storedEntries hes
    have hcarries := Settings.carriesOver_withCredentials l.target l.token hsorted
    obtain ⟨hfile, htext⟩ := Settings.readText_of_ok hpath hes hdone
    obtain ⟨n, htarget, hlast⟩ := Settings.exists_trimSlashes l.target
    refine ⟨_, hcarries, fun _ => hcarries.unique, fun hopen hlegible => ?_,
      fun hopen hlegible habs env level henv hlevel => ?_, hlast, n, htarget⟩
    · rw [storedEntries, htext hopen]
      simp only [hcarries.read?_render (by decide) horderly hsimple hlegible]
    · have hread := hcarries.read?_render (d := loadingDialect) (by decide) horderly hsimple
        hlegible
      have hload := Settings.load_of_carriesOver hcarries habs hfile (htext hopen) hread henv hlevel
      exact ⟨_, hload, rfl, rfl, fun p => rfl⟩
  · rintro s rfl
    exact (Login.ends_run l path s).mono (fun _ _ h => h) fun _ h => h.leftAlone

/-- A file with a section of its own. -/
theorem login_keeps_sections :
    let path : Path := ⟨[47, 99]⟩
    let fs := FileSystem.single "mode = 'a\\b'\n[logging]\nlevel = \"info\"\n"
    let l : Login := ⟨"https://p//", "t"⟩
    let done := (writeCredentials fs path l.target l.token).2
    ∃ es es' c, storedEntries fs path = .ok es ∧ CarriesOver l.target l.token es es'
      ∧ storedEntries done path = .ok es' ∧ Config.load done [] path = .ok c ∧ c.level = .info
      ∧ c.requireToken = .ok "t" ∧ c.url "/x" = .ok "https://p/x" := by
  intro path fs l done
  have hread : ((Toml.read? storingDialect "mode = 'a\\b'\n[logging]\nlevel = \"info\"\n").elim
      false fun es => decide (Toml.entriesAreSimple es = true ∧ OthersLegible storingDialect es
        ∧ OthersLegible loadingDialect es
        ∧ loggingLevel? (Toml.lookup? "logging" es) = some .info)) = true := by decide +kernel
  cases hes : Toml.read? storingDialect "mode = 'a\\b'\n[logging]\nlevel = \"info\"\n" with
  | none => simp [hes] at hread
  | some es =>
    rw [hes, Option.elim_some] at hread
    obtain ⟨hsimple, hstoring, hloading, hlevel⟩ := of_decide_eq_true hread
    have hstored := FileSystem.storedEntries_single hes
    have hwritten := FileSystem.writeCredentials_single l.target l.token hes
    have hdone : writeCredentials fs path l.target l.token = (.ok (), done) := by
      rw [show done = _ from congrArg Prod.snd hwritten]
      exact hwritten
    obtain ⟨es', hcarries, -, hread', hload, -⟩ := (login_keeps_configuration fs path l).1 es done
      (.inl (by decide)) hstored hsimple hdone
    have hopen : ¬ FoundLocked fs done path := fun h => Bool.noConfusion h.not_isPrivileged
    obtain ⟨c, hc, hclevel, htoken, hurl⟩ :=
      hload hopen hloading (by decide) [] .info (by simp [Settings.Environment.IsForeign]) hlevel
    have htrim : Config.trimSlashes l.target ++ "/x" = "https://p/x" := by decide
    exact ⟨es, es', c, hstored, hcarries, hread' hopen hstoring, hc, hclevel, htoken,
      htrim ▸ hurl "/x"⟩

/-- A table that a header and a dotted key nest is written under one header, which has the keys of
both. So a configuration that is read is lost by logging in: the file can then neither be loaded nor
be read to log in again. -/
theorem login_loses_deep_tables :
    let path : Path := ⟨[47, 99]⟩
    let text := String.ofList ('[' :: Toml.pathText (List.replicate 70 "a") ++ ']' :: '\n'
      :: Toml.pathText (List.replicate 70 "b") ++ [' ', '=', ' ', '1', '\n'])
    let fs := FileSystem.single text
    let done := (writeCredentials fs path "https://p" "t").2
    (∃ es, storedEntries fs path = .ok es ∧ Toml.entriesAreSimple es = true)
      ∧ Config.load fs [] path = .ok ⟨none, none, .warn⟩
      ∧ (writeCredentials fs path "https://p" "t").1 = .ok ()
      ∧ storedEntries done path = .error .malformed
      ∧ Config.load done [] path = .error (.unreadable .text) := by
  intro path text fs done
  have hstoring : ((Toml.read? storingDialect text).elim false fun es =>
      let stored := Toml.render (Settings.withCredentials "https://p" "t" es)
      Toml.entriesAreSimple es && (Toml.read? storingDialect stored).isNone
        && (Toml.read? loadingDialect stored).isNone) = true := by
    simp only [text, Toml.render, Toml.read?_ofList]
    decide +kernel
  have hloading : Config.load fs [] path = .ok ⟨none, none, .warn⟩ := by
    simp only [Config.load, fs, path, FileSystem.fileEntries_single, text, Toml.read?_ofList]
    decide +kernel
  cases hread : Toml.read? storingDialect text with
  | none => simp [hread] at hstoring
  | some es =>
    rw [hread] at hstoring
    simp only [Option.elim_some, Bool.and_eq_true, Option.isNone_iff_eq_none] at hstoring
    obtain ⟨⟨hsimple, hstored⟩, hloaded⟩ := hstoring
    have hdone := FileSystem.writeCredentials_single "https://p" "t" hread
    refine ⟨⟨es, FileSystem.storedEntries_single hread, hsimple⟩, hloading, ?_, ?_, ?_⟩
    · rw [hdone]
    · rw [show done = _ from congrArg Prod.snd hdone]
      exact FileSystem.storedEntries_single_malformed hstored
    · rw [show done = _ from congrArg Prod.snd hdone, Config.load, FileSystem.fileEntries_single,
        hloaded]
      rfl

end DeployClient
