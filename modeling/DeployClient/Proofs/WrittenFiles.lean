import DeployClient.Proofs.FollowedLinks
import DeployClient.Proofs.TreeChanges

/-!
Files that are written, and directories that are made.

Neither takes a directory or a link away. So a way that led to a place before leads there
afterwards, and what has been written is read from the same path.
-/

namespace DeployClient.FileSystem

open Node (Alike Refilled SameDirectory)
open Bytes (slash dot)

variable {fs fs' fs'' : FileSystem} {intent : Intent} {links : Nat} {slashed force : Bool}
  {names rest ns parent : List Bytes} {part name data : Bytes} {permissions : Nat} {place : Place}
  {n k m : Node} {p : Path} {above : List Path}

/-! ### Ways that stay -/

/-- Directories and links stay where they are, and the process may do with the directories what
it might. -/
structure KeepsWays (fs fs' : FileSystem) : Prop where
  cwd : fs'.cwd = fs.cwd
  caller : fs'.caller = fs.caller
  directory : ∀ ns n, fs.nodeAt? ns = some n → n.isDirectory = true →
    ∃ m, fs'.nodeAt? ns = some m ∧ SameDirectory n m
  link : ∀ ns n, fs.nodeAt? ns = some n → n.isSymlink = true → fs'.nodeAt? ns = some n

lemma isPlace_iff (h : fs.nodeAt? ns = some n) :
    fs.isPlace ns = true ↔ n.isDirectory = true ∧ fs.allows .search n = true := by
  rw [isPlace, h, Bool.and_eq_true]

/-- Only a removed current directory is a place without a node. -/
lemma isSome_of_isPlace (h : fs.isPlace ns = true) (hne : ns ≠ fs.cwd) :
    (fs.nodeAt? ns).isSome = true := by
  unfold isPlace at h
  split at h
  · next hn => simp [hn]
  · exact absurd (of_decide_eq_true h) hne

lemma KeepsWays.isPlace (h : KeepsWays fs fs') (hsome : (fs.nodeAt? ns).isSome = true)
    (hplace : fs.isPlace ns = true) : fs'.isPlace ns = true := by
  obtain ⟨d, hd⟩ := Option.isSome_iff_exists.mp hsome
  obtain ⟨hdir, hsearch⟩ := (isPlace_iff hd).mp hplace
  obtain ⟨m, hm, hsame⟩ := h.directory ns d hd hdir
  refine (isPlace_iff hm).mpr ⟨hsame.new, ?_⟩
  rwa [allows, hsame.stamp, h.caller]

/-- The names of a place, from the root on. -/
def namesOf : Place → List Bytes
  | .taken names _ => names
  | .free parent name => parent ++ [name]

lemma isSome_dropLast (h : (fs.nodeAt? names).isSome = true) :
    (fs.nodeAt? names.dropLast).isSome = true := by
  rcases List.eq_nil_or_concat' names with rfl | ⟨front, last, rfl⟩
  · exact h
  · rw [List.dropLast_concat]
    rw [nodeAt?_concat] at h
    cases hfront : fs.nodeAt? front with
    | none => simp [hfront] at h
    | some m => rfl

lemma not_isSymlink_of_isDirectory (h : n.isDirectory = true) : n.isSymlink = false := by
  cases n with
  | directory stamp entries => rfl
  | _ => simp [Node.isDirectory] at h

/-- **Ways that stay lead to what stands there now**: to what is at the place that was found, or
to what has been put where there was room for a file. -/
theorem follow_of_keepsWays (h : KeepsWays fs fs') (hintent : intent ≠ .inspect)
    (hk : fs'.nodeAt? (namesOf place) = some k) (hlink : k.isSymlink = false)
    (hplace : intent = .write ∨ ∃ ns n, place = .taken ns n)
    (hstart : (fs.nodeAt? names).isSome = true)
    (hgo : fs.resolveFrom intent links slashed names rest = .ok place) :
    fs'.resolveFrom .follow links slashed names rest = .ok (.taken (namesOf place) k) := by
  induction links using Nat.strongRecOn generalizing slashed names rest with
  | _ links ihlinks =>
    induction rest generalizing names with
    | nil =>
      rw [resolveFrom_nil] at hgo ⊢
      obtain rfl := Except.ok.inj hgo
      rw [namesOf] at hk ⊢
      rw [standing_eq hk]
    | cons part rest ih =>
      obtain ⟨hisPlace, hwrite, hpursuit⟩ := (resolveFrom_cons_eq_ok_iff hintent).mp hgo
      apply ok_of_pursuit (h.isPlace hstart hisPlace)
      cases hpursuit with
      | here hpart hgo => exact .here hpart (ih hstart hgo)
      | up hpart hgo => exact .up hpart (ih (isSome_dropLast hstart) hgo)
      | free plain hnode hrest hfree =>
        subst hrest hfree
        have hwriting : intent = .write := hplace.resolve_right (by simp)
        have hslashed : slashed = false := by
          by_contra hslashed
          exact hwrite ⟨rfl, by simpa using hslashed, hwriting⟩
        refine .node plain hk hlink (.inr ⟨rfl, hslashed⟩) ?_
        rw [namesOf] at hk ⊢
        rw [resolveFrom_nil, standing_eq hk]
      | link plain hnode hlinks hnext =>
        subst hlinks
        refine .link plain (h.link _ _ hnode rfl) rfl (ihlinks _ (Nat.lt_succ_self _) ?_ hnext)
        split
        · rfl
        · exact hstart
      | @node plain n hnode hnlink hend hgo =>
        have hsome : (fs.nodeAt? (names ++ [part])).isSome = true := by simp [hnode]
        by_cases hdir : n.isDirectory = true
        · obtain ⟨m, hm, hsame⟩ := h.directory _ n hnode hdir
          exact .node plain hm (not_isSymlink_of_isDirectory hsame.new) (.inl hsame.new)
            (ih hsome hgo)
        · obtain ⟨rfl, hslashed⟩ := hend.resolve_left hdir
          have hspot : namesOf place = names ++ [part] := by
            rw [resolveFrom_nil] at hgo
            rw [← Except.ok.inj hgo, namesOf]
          exact .node plain (hspot ▸ hk) hlink (.inr ⟨rfl, hslashed⟩) (ih hsome hgo)

/-- There is a directory from which a path is followed. -/
def StartsFrom (fs : FileSystem) (p : Path) : Prop :=
  p.isAbsolute = true ∨ (fs.nodeAt? fs.cwd).isSome = true

lemma resolve_of_keepsWays (h : KeepsWays fs fs') (hp : fs.StartsFrom p)
    (hintent : intent ≠ .inspect) (hk : fs'.nodeAt? (namesOf place) = some k)
    (hlink : k.isSymlink = false) (hplace : intent = .write ∨ ∃ ns n, place = .taken ns n)
    (hgo : fs.resolve intent p = .ok place) :
    fs'.resolve .follow p = .ok (.taken (namesOf place) k) := by
  have htakes := takes_of_resolve hgo
  rw [resolve_of_takes htakes] at hgo ⊢
  rw [h.cwd]
  refine follow_of_keepsWays h hintent hk hlink hplace ?_ hgo
  split
  · rfl
  · next habs => exact hp.resolve_left habs

/-! ### Writing -/

lemma not_isDirectory_of_isSymlink (h : n.isSymlink = true) : n.isDirectory = false := by
  by_contra hdir
  simp [not_isSymlink_of_isDirectory (by simpa using hdir)] at h

/-- Ways stay where a node is put in the place of what is no part of a way. -/
lemma keepsWays_of_alike {root : Node}
    (hspot : ∀ rest n, fs.nodeAt? (names ++ rest) = some n →
      n.isDirectory = false ∧ n.isSymlink = false)
    (h : ∀ ns, ¬ names <+: ns → Option.Rel Alike (fs.nodeAt? ns) (Node.descend? ns root)) :
    KeepsWays fs { fs with root := root } where
  cwd := rfl
  caller := rfl
  directory ns n hn hdir := by
    refine Node.exists_directory_of_rel (h ns ?_) hn hdir
    rintro ⟨rest, rfl⟩
    simp [(hspot rest n hn).1] at hdir
  link ns n hn hlink := by
    refine (Node.eq_some_iff_of_rel (h ns ?_) (not_isDirectory_of_isSymlink hlink)).mpr hn
    rintro ⟨rest, rfl⟩
    simp [(hspot rest n hn).2] at hlink

/-- A free name, in a directory. -/
lemma exists_directory_of_free (h : fs.Finds (.free parent name))
    (hparent : (fs.nodeAt? parent).isSome = true) :
    ∃ d, fs.nodeAt? parent = some d ∧ d.isDirectory = true ∧ d.entry? name = none := by
  obtain ⟨hplace, hfree⟩ := h
  obtain ⟨d, hd⟩ := Option.isSome_iff_exists.mp hparent
  refine ⟨d, hd, ((isPlace_iff hd).mp hplace).1, ?_⟩
  rwa [nodeAt?_concat, hd, Option.bind_some] at hfree

lemma nodeAt?_below_free (h : fs.Finds (.free parent name)) (rest : List Bytes) :
    fs.nodeAt? (parent ++ [name] ++ rest) = none := by
  have hfree : Node.descend? (parent ++ [name]) fs.root = none := h.2
  rw [nodeAt?, Node.descend?_append, hfree, Option.bind_none]

/-- What is found and is no directory is there. -/
lemma nodeAt?_of_finds (h : fs.Finds (.taken ns n)) (hdir : n.isDirectory = false) :
    fs.nodeAt? ns = some n := by
  have hn : n = fs.standing ns := h
  unfold standing at hn
  cases hnode : fs.nodeAt? ns with
  | none =>
    rw [hnode] at hn
    simp [hn, Node.isDirectory] at hdir
  | some m =>
    rw [hnode] at hn
    rw [hn, Option.getD_some]

/-- A file was put in a place that held a file or was free. All else is what it was, but for the
entries of directories. -/
structure Puts (fs fs' : FileSystem) (place : Place) (stamp : Stamp) (data : Bytes) : Prop where
  cwd : fs'.cwd = fs.cwd
  caller : fs'.caller = fs.caller
  spot : ∀ rest n, fs.nodeAt? (namesOf place ++ rest) = some n → rest = [] ∧ n.isFile = true
  file : fs'.nodeAt? (namesOf place) = some (.file stamp data)
  beside : ∀ ns, ¬ namesOf place <+: ns → Option.Rel Refilled (fs.nodeAt? ns) (fs'.nodeAt? ns)

lemma Puts.keepsWays {stamp : Stamp} (h : Puts fs fs' place stamp data) : KeepsWays fs fs' := by
  have hspot : ∀ rest n, fs.nodeAt? (namesOf place ++ rest) = some n →
      n.isDirectory = false ∧ n.isSymlink = false := by
    intro rest n hn
    have hfile := (h.spot rest n hn).2
    cases n with
    | file stamp data => exact ⟨rfl, rfl⟩
    | _ => simp [Node.isFile] at hfile
  have hkeeps : KeepsWays fs { fs with root := fs'.root } :=
    keepsWays_of_alike hspot fun ns hns => Node.rel_alike (h.beside ns hns)
  exact ⟨h.cwd, h.caller, hkeeps.directory, hkeeps.link⟩

/-- Elsewhere every node has the kind, the permissions and the content that it had. -/
lemma Puts.map_look {stamp : Stamp} (h : Puts fs fs' place stamp data) (hns : ns ≠ namesOf place) :
    (fs'.nodeAt? ns).map Node.look = (fs.nodeAt? ns).map Node.look := by
  by_cases hbelow : namesOf place <+: ns
  · -- there was nothing below a file or a free name, and there is nothing below the file
    obtain ⟨rest, rfl⟩ := hbelow
    have hrest : rest ≠ [] := by
      rintro rfl
      exact hns (List.append_nil _)
    have hbefore : fs.nodeAt? (namesOf place ++ rest) = none :=
      Option.eq_none_iff_forall_ne_some.mpr fun n hn => hrest (h.spot rest n hn).1
    have hfile : Node.descend? (namesOf place) fs'.root = some (.file stamp data) := h.file
    have hafter : fs'.nodeAt? (namesOf place ++ rest) = none := by
      rw [nodeAt?, Node.descend?_append, hfile, Option.bind_some,
        Node.descend?_of_not_directory rfl hrest]
    rw [hbefore, hafter]
  · exact Node.map_look_of_rel (h.beside ns hbelow)

/-- What is added is found in its place. -/
lemma puts_of_add {stamp : Stamp} (h : fs.Finds (.free parent name))
    (hmade : fs.add parent name (.file stamp data) = .ok fs') :
    Puts fs fs' (.free parent name) stamp data := by
  unfold add at hmade
  split at hmade
  · simp at hmade
  · next hnode =>
    split at hmade
    · obtain rfl := Except.ok.inj hmade
      obtain ⟨d, hd, hdir, hfree⟩ := exists_directory_of_free h (by simp [hnode])
      refine ⟨rfl, rfl, fun rest n hn => ?_, ?_, fun ns hns => ?_⟩
      · rw [namesOf, nodeAt?_below_free h] at hn
        simp at hn
      · exact Node.descend?_put_below _ hd hdir hfree
      · exact Node.descend?_put_beside _ hd hdir hfree hns
    · simp at hmade

/-- A file that is written anew keeps its place and its owner. -/
lemma puts_rewrite {stamp : Stamp} {old : Bytes} (h : fs.Finds (.taken names (.file stamp old)))
    (permissions : Nat) (data : Bytes) :
    Puts fs (fs.rewrite names stamp permissions data) (.taken names (.file stamp old))
      ⟨permissions, fs.now, stamp.owner⟩ data := by
  have hnode := nodeAt?_of_finds h rfl
  refine ⟨rfl, rfl, fun rest n hn => ?_, ?_,
    fun ns hns => Node.descend?_modify_beside _ hns fs.root⟩
  · rw [namesOf, nodeAt?, Node.descend?_append, ← nodeAt?, hnode, Option.bind_some] at hn
    cases rest with
    | nil =>
      obtain rfl := Option.some.inj hn
      exact ⟨rfl, rfl⟩
    | cons name rest =>
      rw [Node.descend?_of_not_directory rfl (by simp)] at hn
      simp at hn
  · have hbelow := Node.descend?_modify_below
      (fun _ => Node.file ⟨permissions, fs.now, stamp.owner⟩ data) names [] fs.root
    rw [List.append_nil, ← nodeAt?, hnode] at hbelow
    exact hbelow

/-- What a write comes to: the file is new, it is the one that was there, its permissions could
not be changed, or nothing was written. -/
inductive WriteEnd (fs : FileSystem) (p : Path) (data : Bytes) (permissions : Nat) (force : Bool) :
    Except OsError Unit × FileSystem → Prop where
  | made {parent : List Bytes} {name : Bytes} {d : Node} {fs' : FileSystem}
      (place : fs.resolve .write p = .ok (.free parent name)) (node : fs.nodeAt? parent = some d)
      (allowed : fs.allows .write d = true)
      (puts : Puts fs fs' (.free parent name) (fs.stamp permissions) data) :
      WriteEnd fs p data permissions force (.ok (), fs')
  | replaced {names : List Bytes} {stamp : Stamp} {old : Bytes} {fs' : FileSystem}
      (place : fs.resolve .write p = .ok (.taken names (.file stamp old)))
      (allowed : stamp.allows fs.caller .write = true)
      (owned : force = true → stamp.isOwnedBy fs.caller = true)
      (puts : Puts fs fs' (.taken names (.file stamp old))
        ⟨if force then permissions else stamp.permissions, fs.now, stamp.owner⟩ data) :
      WriteEnd fs p data permissions force (.ok (), fs')
  | emptied {names : List Bytes} {stamp : Stamp} {old : Bytes} {fs' : FileSystem}
      (place : fs.resolve .write p = .ok (.taken names (.file stamp old)))
      (allowed : stamp.allows fs.caller .write = true) (forced : force = true)
      (foreign : stamp.isOwnedBy fs.caller = false)
      (puts : Puts fs fs' (.taken names (.file stamp old))
        ⟨stamp.permissions, fs.now, stamp.owner⟩ []) :
      WriteEnd fs p data permissions force (.error .notPermitted, fs')
  | refused {e : OsError}
      (free : ∀ parent name, fs.resolve .write p = .ok (.free parent name) →
        ∀ d, fs.nodeAt? parent = some d → fs.allows .write d = false)
      (taken : ∀ names stamp old, fs.resolve .write p = .ok (.taken names (.file stamp old)) →
        stamp.allows fs.caller .write = false) :
      WriteEnd fs p data permissions force (.error e, fs)

lemma writeEnd (fs : FileSystem) (p : Path) (data : Bytes) (permissions : Nat) (force : Bool) :
    WriteEnd fs p data permissions force (fs.write p data permissions force) := by
  unfold write
  split
  · next hplace => exact .refused (by simp [hplace]) (by simp [hplace])
  · next parent name hplace =>
    split
    · next e hadd =>
      refine .refused (fun parent' name' hplace' d hd => ?_) (by simp [hplace])
      rw [hplace] at hplace'
      cases hplace'
      cases hallowed : fs.allows .write d with
      | false => rfl
      | true => simp [add, hd, hallowed] at hadd
    · next made hadd =>
      have hputs := puts_of_add (finds_of_resolve hplace) hadd
      unfold add at hadd
      split at hadd
      · simp at hadd
      · next d hd =>
        split at hadd
        · next hallowed => exact .made hplace hd hallowed hputs
        · simp at hadd
  · next names stamp old hplace =>
    have hfinds := finds_of_resolve hplace
    split
    · next hallowed =>
      refine .refused (by simp [hplace]) fun names' stamp' old' hplace' => ?_
      rw [hplace] at hplace'
      cases hplace'
      simpa using hallowed
    · next hallowed =>
      have hallowed : stamp.allows fs.caller .write = true := by simpa using hallowed
      split
      · next hforce =>
        obtain rfl : force = false := by simpa using hforce
        exact .replaced hplace hallowed (by simp) (puts_rewrite hfinds stamp.permissions data)
      · next hforce =>
        obtain rfl : force = true := by simpa using hforce
        split
        · next howned =>
          exact .replaced hplace hallowed (fun _ => howned) (puts_rewrite hfinds permissions data)
        · next howned =>
          exact .emptied hplace hallowed rfl (by simpa using howned)
            (puts_rewrite hfinds stamp.permissions [])
  all_goals next hplace => exact .refused (by simp [hplace]) (by simp [hplace])

/-- Where a file was written, and what it left alone. -/
lemma exists_puts_of_write (h : fs.write p data permissions force = (.ok (), fs')) :
    ∃ place stamp, fs.resolve .write p = .ok place ∧ Puts fs fs' place stamp data := by
  have hend := writeEnd fs p data permissions force
  rw [h] at hend
  cases hend with
  | made hplace _ _ hputs => exact ⟨_, _, hplace, hputs⟩
  | replaced hplace _ _ hputs => exact ⟨_, _, hplace, hputs⟩

/-- A file whose permissions are left alone is written, or nothing is. -/
lemma eq_of_write_error {e : OsError} (h : fs.write p data permissions false = (.error e, fs')) :
    fs' = fs := by
  have hend := writeEnd fs p data permissions false
  rw [h] at hend
  cases hend with
  | emptied place allowed forced => cases forced
  | refused => rfl

/-- To the owner a node allows what the first three permission bits say. -/
lemma allows_of_isOwnedBy {stamp : Stamp} {c : Caller} {a : Access}
    (h : stamp.isOwnedBy c = true) (hbit : stamp.permissions / 64 / a.weight % 2 = 1) :
    stamp.allows c a = true := by
  rw [Stamp.isOwnedBy, Bool.or_eq_true, decide_eq_true_eq] at h
  rcases h with hprivileged | howner
  · simp [Stamp.allows, hprivileged]
  · simp [Stamp.allows, Stamp.bitsFor, howner, hbit]

lemma isOwnedBy_stamp (fs : FileSystem) (permissions : Nat) :
    (fs.stamp permissions).isOwnedBy fs.caller = true := by
  simp [stamp, Stamp.isOwnedBy]

/-- A file that was put in a place is found where the path led. -/
lemma Puts.resolve_follow {stamp : Stamp} (h : Puts fs fs' place stamp data)
    (hp : fs.StartsFrom p) (hplace : fs.resolve .write p = .ok place) :
    fs'.resolve .follow p = .ok (.taken (namesOf place) (.file stamp data)) :=
  resolve_of_keepsWays h.keepsWays hp (by simp) h.file rfl (.inl rfl) hplace

lemma isFile_of_resolve {stamp : Stamp}
    (h : fs.resolve .follow p = .ok (.taken ns (.file stamp data))) : fs.isFile p = true := by
  rw [isFile, stat_eq_ok_iff.mpr ⟨_, h⟩]
  rfl

/-- What is found to be a file is read, if the process may read it. -/
lemma read_of_resolve {stamp : Stamp}
    (h : fs.resolve .follow p = .ok (.taken ns (.file stamp data)))
    (hread : stamp.allows fs.caller .read = true) : fs.read p = .ok data := by
  rw [read, openNode, stat_eq_ok_iff.mpr ⟨_, h⟩]
  simp only [allows, Node.stamp, hread, Bool.not_true, Bool.false_eq_true, if_false]
  rfl

/-! ### Making directories -/

/-- Directories were made, and that is all. -/
structure Grows (fs fs' : FileSystem) : Prop where
  cwd : fs'.cwd = fs.cwd
  caller : fs'.caller = fs.caller
  directory : ∀ ns n, fs.nodeAt? ns = some n → n.isDirectory = true →
    ∃ m, fs'.nodeAt? ns = some m ∧ SameDirectory n m
  other : ∀ ns n, n.isDirectory = false → (fs'.nodeAt? ns = some n ↔ fs.nodeAt? ns = some n)

lemma Grows.refl (fs : FileSystem) : Grows fs fs :=
  ⟨rfl, rfl, fun _ n hn hdir => ⟨n, hn, hdir, hdir, rfl⟩, fun _ _ _ => .rfl⟩

lemma Grows.trans (h : Grows fs fs') (h' : Grows fs' fs'') : Grows fs fs'' where
  cwd := h'.cwd.trans h.cwd
  caller := h'.caller.trans h.caller
  directory ns n hn hdir := by
    obtain ⟨m, hm, hsame⟩ := h.directory ns n hn hdir
    obtain ⟨k, hk, hsame'⟩ := h'.directory ns m hm hsame.new
    exact ⟨k, hk, hdir, hsame'.new, hsame'.stamp.trans hsame.stamp⟩
  other ns n hn := (h'.other ns n hn).trans (h.other ns n hn)

lemma Grows.keepsWays (h : Grows fs fs') : KeepsWays fs fs' where
  cwd := h.cwd
  caller := h.caller
  directory := h.directory
  link ns n hn hlink := (h.other ns n (not_isDirectory_of_isSymlink hlink)).mpr hn

/-- Where a file is to be written that is there, it is found. -/
lemma resolve_follow_of_write {stamp : Stamp} (hp : fs.StartsFrom p)
    (h : fs.resolve .write p = .ok (.taken ns (.file stamp data))) :
    fs.resolve .follow p = .ok (.taken ns (.file stamp data)) := by
  have hnode : fs.nodeAt? (namesOf (.taken ns (.file stamp data))) = some (.file stamp data) :=
    nodeAt?_of_finds (finds_of_resolve h) rfl
  exact resolve_of_keepsWays (Grows.refl fs).keepsWays hp (by simp) hnode rfl (.inl rfl) h

lemma Grows.startsFrom (h : Grows fs fs') (hp : fs.StartsFrom p) :
    fs'.StartsFrom p := by
  refine hp.imp_right fun hcwd => ?_
  obtain ⟨n, hn⟩ := Option.isSome_iff_exists.mp hcwd
  rw [h.cwd]
  by_cases hdir : n.isDirectory = true
  · obtain ⟨m, hm, -⟩ := h.directory _ n hn hdir
    rw [hm]
    rfl
  · rw [(h.other _ n (by simpa using hdir)).mpr hn]
    rfl

/-- What is read is in a file that the process may read. -/
lemma exists_file_of_read (h : fs.read p = .ok data) :
    ∃ ns stamp, fs.resolve .follow p = .ok (.taken ns (.file stamp data))
      ∧ stamp.allows fs.caller .read = true := by
  unfold FileSystem.read openNode at h
  cases hstat : fs.stat p with
  | error e => simp [hstat] at h
  | ok n =>
    obtain ⟨ns, hto⟩ := stat_eq_ok_iff.mp hstat
    cases hallows : fs.allows .read n with
    | false => simp [hstat, hallows] at h
    | true =>
      cases n with
      | file stamp data' =>
        obtain rfl : data' = data := by simpa [hstat, hallows, Node.contents] using h
        exact ⟨ns, stamp, hto, hallows⟩
      | _ => simp [hstat, hallows, Node.contents] at h

/-- What could be read before can be read afterwards, and is the same. -/
theorem Grows.read (h : Grows fs fs') (hp : fs.StartsFrom p) (hread : fs.read p = .ok data) :
    fs'.read p = .ok data := by
  obtain ⟨ns, stamp, hto, hallows⟩ := exists_file_of_read hread
  have hnode : fs'.nodeAt? (namesOf (.taken ns (.file stamp data))) = some (.file stamp data) :=
    (h.other ns _ rfl).mpr (nodeAt?_of_finds (finds_of_resolve hto) rfl)
  have hto' := resolve_of_keepsWays h.keepsWays hp (by simp) hnode rfl (.inr ⟨ns, _, rfl⟩) hto
  exact read_of_resolve hto' (h.caller ▸ hallows)

/-- A directory that is added is empty, and all else is what it was. -/
lemma grows_of_add {stamp : Stamp} (h : fs.Finds (.free parent name))
    (hmade : fs.add parent name (.directory stamp []) = .ok fs') : Grows fs fs' := by
  unfold add at hmade
  split at hmade
  · simp at hmade
  · next hnode =>
    split at hmade
    · obtain rfl := Except.ok.inj hmade
      obtain ⟨d, hd, hdir, hfree⟩ := exists_directory_of_free h (by simp [hnode])
      have hbeside := fun ns (hns : ¬ parent ++ [name] <+: ns) =>
        Node.descend?_put_beside (.directory stamp []) hd hdir hfree hns
      refine ⟨rfl, rfl, fun ns n hn hndir => ?_, fun ns n hndir => ?_⟩
      · refine Node.exists_directory_of_rel (Node.rel_alike (hbeside ns ?_)) hn hndir
        rintro ⟨rest, rfl⟩
        rw [nodeAt?_below_free h] at hn
        simp at hn
      · by_cases hns : parent ++ [name] <+: ns
        · -- there was nothing, and there is an empty directory
          obtain ⟨rest, rfl⟩ := hns
          rw [nodeAt?_below_free h, nodeAt?, List.append_assoc, List.singleton_append,
            Node.descend?_put_below _ hd hdir hfree]
          cases rest with
          | nil =>
            constructor
            · rintro ⟨⟩
              simp [Node.isDirectory] at hndir
            · simp
          | cons part rest => simp [Node.descend?_cons, Node.entry?, Node.entries]
        · exact Node.eq_some_iff_of_rel (Node.rel_alike (hbeside ns hns)) hndir
    · simp at hmade

lemma grows_of_makeDirectory (h : fs.makeDirectory p = .ok fs') : Grows fs fs' := by
  unfold makeDirectory at h
  split at h
  · simp at h
  · simp at h
  · next hplace => exact grows_of_add (finds_of_resolve hplace) h

lemma grows_makeOrFind (fs : FileSystem) (p : Path) : Grows fs (fs.makeOrFind p).2 := by
  unfold makeOrFind
  split
  · next made hmade => exact grows_of_makeDirectory hmade
  · split <;> exact .refl fs

/-- **Making directories changes no file and no link**, whether or not all could be made. -/
theorem grows_makeAlong (fs : FileSystem) (above : List Path) :
    Grows fs (fs.makeAlong above).2 := by
  induction above with
  | nil => exact .refl fs
  | cons p above ih =>
    unfold makeAlong
    split
    · exact .refl fs
    · split
      · split
        · next e made hmade =>
          rw [hmade] at ih
          exact ih
        · next made hmade =>
          rw [hmade] at ih
          exact ih.trans (grows_makeOrFind made p)
      · exact grows_makeOrFind fs p

end DeployClient.FileSystem
