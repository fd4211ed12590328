import DeployClient.Proofs.ParentPaths

/-!
The directory that holds a file, where links are followed.

The text of a path without its last part leads to the directory in which the last part is looked
up, whatever links there are on the way. So a file that is found stands in the directory that its
path tells.
-/

namespace DeployClient.FileSystem

open DeployClient.Path (IsName Tells joinNames lastPart)
open Bytes (slash dot)

variable {fs : FileSystem} {intent : Intent} {links : Nat} {slashed : Bool}
  {names front rest ns ms : List Bytes} {part name : Bytes} {place : Place} {n k : Node} {p : Path}

/-! ### Steps -/

/-- How a way on which all links are followed goes on after its first step. -/
inductive Pursuit (fs : FileSystem) (intent : Intent) (links : Nat) (slashed : Bool)
    (names : List Bytes) (part : Bytes) (rest : List Bytes) (place : Place) : Prop where
  | here (hpart : part = [dot])
      (h : fs.resolveFrom intent links slashed names rest = .ok place)
  | up (hpart : part = [dot, dot])
      (h : fs.resolveFrom intent links slashed names.dropLast rest = .ok place)
  | free (plain : Plain part) (hnode : fs.nodeAt? (names ++ [part]) = none) (hrest : rest = [])
      (h : place = .free names part)
  | link (plain : Plain part) {stamp : Stamp} {target : Bytes}
      (hnode : fs.nodeAt? (names ++ [part]) = some (.symlink stamp target)) {l : Nat}
      (hlinks : links = l + 1)
      (h : fs.resolveFrom intent l (slashed || (rest = [] && endsWithSlash target))
        (if target.head? = some slash then [] else names) (steps target ++ rest) = .ok place)
  | node (plain : Plain part) {n : Node} (hnode : fs.nodeAt? (names ++ [part]) = some n)
      (hlink : n.isSymlink = false) (hend : n.isDirectory = true ∨ rest = [] ∧ slashed = false)
      (h : fs.resolveFrom intent links slashed (names ++ [part]) rest = .ok place)

lemma pursuit_of_cons (hintent : intent ≠ .inspect) (hplace : fs.isPlace names = true)
    (hend : ¬ (rest = [] ∧ slashed = true ∧ intent = .write))
    (h : fs.resolveFrom intent links slashed names (part :: rest) = .ok place) :
    Pursuit fs intent links slashed names part rest place := by
  rw [resolveFrom_cons, if_neg (by simp [hplace]), if_neg hend] at h
  split at h
  · next hdot => exact .here hdot h
  next hdot =>
  split at h
  · next hdots => exact .up hdots h
  next hdots =>
  split at h
  · simp at h
  next hlength =>
  have hplain : Plain part := ⟨hdot, hdots, Nat.le_of_not_lt hlength⟩
  split at h
  · next hnode =>
    split at h
    · next hrest => exact .free hplain hnode hrest (Except.ok.inj h).symm
    · simp at h
  · next stamp target hnode =>
    rw [if_neg (by simp [hintent])] at h
    unfold settle at h
    rcases links with _ | l
    · simp at h
    · exact .link hplain hnode rfl h
  · next n hlink hnode =>
    split at h
    · simp at h
    next hmore =>
    refine .node hplain hnode ?_ ?_ h
    · cases n with
      | symlink stamp target => exact absurd rfl (hlink stamp target)
      | _ => rfl
    · by_cases hd : n.isDirectory = true
      · exact .inl hd
      · exact .inr (by simpa [hd] using hmore)

lemma Pursuit.resolveFrom (hintent : intent ≠ .inspect) (hplace : fs.isPlace names = true)
    (hend : ¬ (rest = [] ∧ slashed = true ∧ intent = .write))
    (h : Pursuit fs intent links slashed names part rest place) :
    fs.resolveFrom intent links slashed names (part :: rest) = .ok place := by
  rw [resolveFrom_cons, if_neg (by simp [hplace]), if_neg hend]
  cases h with
  | here hpart h => rw [if_pos hpart, h]
  | up hpart h => rw [if_neg (by simp [hpart]), if_pos hpart, h]
  | free plain hnode hrest h =>
    rw [if_neg plain.ne_dot, if_neg plain.ne_dots, if_neg (Nat.not_lt.mpr plain.length), hnode]
    simp only [if_pos hrest, h]
  | link plain hnode hlinks h =>
    subst hlinks
    rw [if_neg plain.ne_dot, if_neg plain.ne_dots, if_neg (Nat.not_lt.mpr plain.length), hnode]
    simpa only [hintent, false_and, and_false, if_false, settle] using h
  | @node plain n hnode hlink hend h =>
    rw [if_neg plain.ne_dot, if_neg plain.ne_dots, if_neg (Nat.not_lt.mpr plain.length), hnode]
    have hgo : ¬ ((!n.isDirectory) = true ∧ (rest ≠ [] ∨ slashed = true)) := by
      rintro ⟨hnd, hmore⟩
      rcases hend with hdir | ⟨rfl, rfl⟩
      · simp [hdir] at hnd
      · simp at hmore
    cases n with
    | symlink stamp target => simp [Node.isSymlink] at hlink
    | _ => simpa only [if_neg hgo] using h

/-- A way on which all links are followed, taken apart after its first step. What is to be written
is no directory, so there is no slash behind its name. -/
theorem resolveFrom_cons_eq_ok_iff (hintent : intent ≠ .inspect) :
    fs.resolveFrom intent links slashed names (part :: rest) = .ok place ↔
      fs.isPlace names = true ∧ ¬ (rest = [] ∧ slashed = true ∧ intent = .write)
        ∧ Pursuit fs intent links slashed names part rest place := by
  refine ⟨fun h => ?_, fun ⟨hplace, hend, hpursuit⟩ => hpursuit.resolveFrom hintent hplace hend⟩
  have hplace : fs.isPlace names = true := by
    by_contra hplace
    rw [resolveFrom_cons, if_pos (by simpa using hplace)] at h
    simp at h
  have hend : ¬ (rest = [] ∧ slashed = true ∧ intent = .write) := by
    intro hend
    rw [resolveFrom_cons, if_neg (by simp [hplace]), if_pos hend] at h
    simp at h
  exact ⟨hplace, hend, pursuit_of_cons hintent hplace hend h⟩

lemma pursuit_of_ok (h : fs.resolveFrom .follow links slashed names (part :: rest) = .ok place) :
    fs.isPlace names = true ∧ Pursuit fs .follow links slashed names part rest place := by
  obtain ⟨hplace, -, hpursuit⟩ := (resolveFrom_cons_eq_ok_iff (by simp)).mp h
  exact ⟨hplace, hpursuit⟩

lemma ok_of_pursuit (hplace : fs.isPlace names = true)
    (h : Pursuit fs .follow links slashed names part rest place) :
    fs.resolveFrom .follow links slashed names (part :: rest) = .ok place :=
  (resolveFrom_cons_eq_ok_iff (by simp)).mpr ⟨hplace, by simp, h⟩

/-- **The way to a place leads through each directory on it.** -/
theorem follow_append (hrest : rest ≠ [])
    (h : fs.resolveFrom .follow links slashed names (front ++ rest) = .ok place) :
    ∃ ns l, (∀ b, fs.resolveFrom .follow links b names front = .ok (.taken ns (fs.standing ns)))
      ∧ fs.resolveFrom .follow l slashed ns rest = .ok place := by
  induction links using Nat.strongRecOn generalizing slashed names front with
  | _ links ihlinks =>
    induction front generalizing names with
    | nil => exact ⟨names, links, fun b => resolveFrom_nil fs .follow links b names, h⟩
    | cons part front ih =>
      rw [List.cons_append] at h
      obtain ⟨hplace, hpursuit⟩ := pursuit_of_ok h
      have hne : front ++ rest ≠ [] := by simp [hrest]
      cases hpursuit with
      | here hpart h =>
        obtain ⟨ns, l, hfront, hlast⟩ := ih h
        exact ⟨ns, l, fun b => ok_of_pursuit hplace (.here hpart (hfront b)), hlast⟩
      | up hpart h =>
        obtain ⟨ns, l, hfront, hlast⟩ := ih h
        exact ⟨ns, l, fun b => ok_of_pursuit hplace (.up hpart (hfront b)), hlast⟩
      | free plain hnode hend => exact absurd hend hne
      | link plain hnode hlinks hgo =>
        subst hlinks
        rw [decide_eq_false hne, Bool.false_and, Bool.or_false, ← List.append_assoc] at hgo
        obtain ⟨ns, l, hfront, hlast⟩ := ihlinks _ (Nat.lt_succ_self _) hgo
        exact ⟨ns, l, fun b => ok_of_pursuit hplace (.link plain hnode rfl (hfront _)), hlast⟩
      | node plain hnode hlink hend h =>
        have hdir := hend.resolve_right fun he => hne he.1
        obtain ⟨ns, l, hfront, hlast⟩ := ih h
        exact ⟨ns, l,
          fun b => ok_of_pursuit hplace (.node plain hnode hlink (.inl hdir) (hfront b)), hlast⟩

/-- Dots lead nowhere else. -/
lemma follow_dots {m : Nat}
    (h : fs.resolveFrom .follow links slashed names (List.replicate m [dot] ++ rest)
      = .ok place) : fs.resolveFrom .follow links slashed names rest = .ok place := by
  induction m with
  | zero => simpa using h
  | succ m ih =>
    rw [List.replicate_succ, List.cons_append] at h
    cases (pursuit_of_ok h).2 with
    | here hpart h => exact ih h
    | up hpart h => simp at hpart
    | free plain => exact absurd rfl plain.ne_dot
    | link plain => exact absurd rfl plain.ne_dot
    | node plain => exact absurd rfl plain.ne_dot

/-! ### Places -/

/-- Where the current directory is there, names are looked up in directories only. -/
lemma isDirectory_of_isPlace (hcwd : (fs.nodeAt? fs.cwd).isSome = true)
    (h : fs.isPlace names = true) : ∃ d, fs.nodeAt? names = some d ∧ d.isDirectory = true := by
  unfold isPlace at h
  split at h
  · next d hd => exact ⟨d, hd, (Bool.and_eq_true_iff.mp h).1⟩
  · next hnone =>
    have hnames : names = fs.cwd := by simpa using h
    rw [← hnames, hnone] at hcwd
    simp at hcwd

lemma isDirectory_of_entry? {m : Node} (h : m.entry? name = some n) : m.isDirectory = true := by
  have hmem := Node.mem_of_entry_eq h
  cases m with
  | directory stamp entries => rfl
  | _ => simp [Node.entries] at hmem

/-- What stands above a directory is a directory, though perhaps not one that may be searched. -/
lemma isDirectory_standing_dropLast (hcwd : (fs.nodeAt? fs.cwd).isSome = true)
    (h : fs.isPlace names = true) : (fs.standing names.dropLast).isDirectory = true := by
  obtain ⟨d, hd, hdir⟩ := isDirectory_of_isPlace hcwd h
  rcases List.eq_nil_or_concat names with rfl | ⟨front, last, rfl⟩
  · rwa [List.dropLast_nil, standing_eq hd]
  · rw [List.concat_eq_append, nodeAt?_concat] at hd
    obtain ⟨m, hm, hentry⟩ := Option.bind_eq_some_iff.mp hd
    rw [List.concat_eq_append, List.dropLast_concat, standing_eq hm]
    exact isDirectory_of_entry? hentry

lemma isDirectory_standing_nil (hcwd : (fs.nodeAt? fs.cwd).isSome = true)
    (h : fs.isPlace names = true) : (fs.standing []).isDirectory = true := by
  obtain ⟨d, hd, hdir⟩ := isDirectory_of_isPlace hcwd h
  rcases names with _ | ⟨name, names⟩
  · rwa [standing_eq hd]
  · rw [nodeAt?, Node.descend?_cons] at hd
    obtain ⟨m, hentry, -⟩ := Option.bind_eq_some_iff.mp hd
    exact isDirectory_of_entry? hentry

/-- What a way with a slash at its end leads to is a directory. -/
lemma isDirectory_of_slashed (hcwd : (fs.nodeAt? fs.cwd).isSome = true)
    (hstart : (fs.standing names).isDirectory = true)
    (h : fs.resolveFrom .follow links true names rest = .ok (.taken ms k)) :
    k.isDirectory = true := by
  induction links using Nat.strongRecOn generalizing names rest with
  | _ links ihlinks =>
    induction rest generalizing names with
    | nil =>
      rw [resolveFrom_nil] at h
      obtain ⟨-, rfl⟩ := Place.taken.inj (Except.ok.inj h)
      exact hstart
    | cons part rest ih =>
      obtain ⟨hplace, hpursuit⟩ := pursuit_of_ok h
      cases hpursuit with
      | here hpart h => exact ih hstart h
      | up hpart h => exact ih (isDirectory_standing_dropLast hcwd hplace) h
      | free plain hnode hrest h => simp at h
      | link plain hnode hlinks hgo =>
        subst hlinks
        rw [Bool.true_or] at hgo
        refine ihlinks _ (Nat.lt_succ_self _) ?_ hgo
        split
        · exact isDirectory_standing_nil hcwd hplace
        · exact hstart
      | node plain hnode hlink hend h =>
        have hdir := hend.resolve_right (by simp)
        refine ih ?_ h
        rwa [standing_eq hnode]

/-- A way to what is no directory ends with the name of an entry. -/
lemma exists_entry_of_follow (hcwd : (fs.nodeAt? fs.cwd).isSome = true)
    (hk : k.isDirectory = false)
    (h : fs.resolveFrom .follow links slashed names [part] = .ok (.taken ms k)) :
    fs.isPlace names = true ∧ part ≠ [dot] ∧ part ≠ [dot, dot]
      ∧ ∃ n, fs.nodeAt? (names ++ [part]) = some n ∧ (n = k ∨ n.isSymlink = true) := by
  obtain ⟨hplace, hpursuit⟩ := pursuit_of_ok h
  have hstanding : ∀ names' b, (fs.standing names').isDirectory = true →
      fs.resolveFrom .follow links b names' [] ≠ .ok (.taken ms k) := by
    intro names' b hdir hto
    rw [resolveFrom_nil] at hto
    obtain ⟨-, rfl⟩ := Place.taken.inj (Except.ok.inj hto)
    simp [hdir] at hk
  have hhere : (fs.standing names).isDirectory = true := by
    obtain ⟨d, hd, hdir⟩ := isDirectory_of_isPlace hcwd hplace
    rwa [standing_eq hd]
  have habove := isDirectory_standing_dropLast hcwd hplace
  refine ⟨hplace, ?_, ?_, ?_⟩
  · rintro rfl
    cases hpursuit with
    | here hpart h => exact hstanding _ _ hhere h
    | up hpart h => simp at hpart
    | free plain => exact plain.ne_dot rfl
    | link plain => exact plain.ne_dot rfl
    | node plain => exact plain.ne_dot rfl
  · rintro rfl
    cases hpursuit with
    | here hpart h => simp at hpart
    | up hpart h => exact hstanding _ _ habove h
    | free plain => exact plain.ne_dots rfl
    | link plain => exact plain.ne_dots rfl
    | node plain => exact plain.ne_dots rfl
  · cases hpursuit with
    | here hpart h => exact absurd h (hstanding _ _ hhere)
    | up hpart h => exact absurd h (hstanding _ _ habove)
    | free plain hnode hrest h => simp at h
    | link plain hnode hlinks hgo => exact ⟨_, hnode, .inr rfl⟩
    | node plain hnode hlink hend h =>
      rw [resolveFrom_nil, standing_eq hnode] at h
      obtain ⟨-, rfl⟩ := Place.taken.inj (Except.ok.inj h)
      exact ⟨_, hnode, .inl rfl⟩

/-! ### Paths and the directories they tell -/

lemma stat_eq_ok_iff : fs.stat p = .ok n ↔ ∃ ns, fs.resolve .follow p = .ok (.taken ns n) := by
  unfold stat FileSystem.node
  split
  · next he => simp [he]
  · next ns m hm => simp [hm]
  · next hm => simp [hm]

/-- The current directory is there, and so is the root. -/
structure Rooted (fs : FileSystem) : Prop where
  root : fs.root.isDirectory = true
  cwd : (fs.nodeAt? fs.cwd).isSome = true

/-- A way starts from a directory. -/
lemma isDirectory_start (hfs : Rooted fs) (hne : p.bytes ≠ [])
    (h : fs.resolveFrom .follow links slashed (if p.isAbsolute then [] else fs.cwd)
      (steps p.bytes) = .ok place) :
    (fs.standing (if p.isAbsolute then [] else fs.cwd)).isDirectory = true := by
  by_cases habs : p.isAbsolute = true
  · rw [if_pos habs]
    exact hfs.root
  · rcases hsteps : steps p.bytes with _ | ⟨part, rest⟩
    · -- a text without steps begins with a slash
      obtain ⟨first, inner, hparts⟩ :=
        List.exists_cons_of_ne_nil (List.splitOn_ne_nil slash p.bytes)
      have hfirst : first = [] := by
        by_contra hfirst
        rw [Path.steps_eq, hparts, List.filter_cons_of_pos (by simpa using hfirst)] at hsteps
        simp at hsteps
      have hbytes := Path.joinNames_splitOn p.bytes
      rw [hparts, hfirst] at hbytes
      rcases inner with _ | ⟨second, inner⟩
      · exact absurd hbytes.symm hne
      · rw [Path.joinNames_cons _ (by simp), List.nil_append] at hbytes
        refine absurd ?_ habs
        rw [Path.isAbsolute, ← hbytes]
        rfl
    · rw [hsteps, if_neg habs] at h
      obtain ⟨d, hd, hdir⟩ := isDirectory_of_isPlace hfs.cwd (pursuit_of_ok h).1
      rwa [if_neg habs, standing_eq hd]

/-- The text of a path to what is no directory ends with the name of an entry. -/
lemma isName_lastPart (hfs : Rooted fs) (h : fs.stat p = .ok k) (hk : k.isDirectory = false) :
    IsName (lastPart p.bytes) := by
  obtain ⟨ms, h⟩ := stat_eq_ok_iff.mp h
  have htakes := takes_of_resolve h
  rw [resolve_of_takes htakes] at h
  obtain ⟨init, hinit⟩ := Path.splitOn_eq_concat p.bytes
  have hslash : slash ∉ lastPart p.bytes :=
    Path.slash_notMem_of_mem_splitOn (hinit ▸ List.mem_append_right _ (List.mem_singleton_self _))
  by_cases hnil : lastPart p.bytes = []
  · -- a slash at the end asks for a directory
    have hends : endsWithSlash p.bytes = true := by
      have hbytes := Path.joinNames_splitOn p.bytes
      rw [hinit, hnil] at hbytes
      have hne : init ≠ [] := by
        rintro rfl
        exact htakes.nonempty hbytes.symm
      rw [Path.joinNames_append_singleton hne] at hbytes
      rw [endsWithSlash, ← hbytes]
      simp
    have hstart := isDirectory_start hfs htakes.nonempty h
    rw [hends] at h
    simp [isDirectory_of_slashed hfs.cwd hstart h] at hk
  · have hsteps : steps p.bytes = init.filter (· ≠ []) ++ [lastPart p.bytes] := by
      rw [Path.steps_eq, hinit, List.filter_append, List.filter_cons_of_pos (by simpa using hnil),
        List.filter_nil]
    rw [hsteps] at h
    obtain ⟨ns, l, -, hlast⟩ := follow_append (by simp) h
    obtain ⟨-, hdot, hdots, -⟩ := exists_entry_of_follow hfs.cwd hk hlast
    exact ⟨hnil, hslash, hdot, hdots⟩

/-- **A file stands in the directory that its path tells**: there is an entry of its name, which is
the file itself or a link. -/
theorem exists_entry_of_stat (hfs : Rooted fs) (h : fs.stat p = .ok k)
    (hk : k.isDirectory = false) :
    ∃ d n, fs.stat (ContainerFile.directoryOf p) = .ok d ∧ d.isDirectory = true
      ∧ (lastPart p.bytes, n) ∈ d.entries ∧ (n = k ∨ n.isSymlink = true) := by
  have htells := Path.tells_directoryOf (isName_lastPart hfs h hk)
  obtain ⟨ms, h⟩ := stat_eq_ok_iff.mp h
  have htakes := takes_of_resolve h
  obtain ⟨front, m, hsteps, hdir⟩ := htells.steps
  rw [resolve_of_takes htakes, hsteps] at h
  obtain ⟨ns, l, hfront, hlast⟩ := follow_append (by simp) h
  obtain ⟨hplace, -, -, n, hn, hnk⟩ := exists_entry_of_follow hfs.cwd hk (follow_dots hlast)
  obtain ⟨d, hd, hddir⟩ := isDirectory_of_isPlace hfs.cwd hplace
  rw [nodeAt?_concat, hd, Option.bind_some] at hn
  refine ⟨d, n, stat_eq_ok_iff.mpr ⟨ns, ?_⟩, hddir, Node.mem_of_entry_eq hn, hnk⟩
  rw [resolve_of_takes (htells.takes htakes), htells.absolute]
  have hstart := hfront (endsWithSlash (ContainerFile.directoryOf p).bytes)
  rw [standing_eq hd] at hstart
  rcases hdir with hdir | ⟨rfl, hdir⟩
  · rw [hdir]
    exact hstart
  · -- the current directory is told by a dot
    rw [resolveFrom_nil] at hstart
    obtain ⟨hns, -⟩ := Place.taken.inj (Except.ok.inj hstart)
    rw [hdir, resolveFrom_cons, hns, if_neg (by simp [hplace]), if_neg (by simp), if_pos rfl,
      resolveFrom_nil, standing_eq hd]

end DeployClient.FileSystem
