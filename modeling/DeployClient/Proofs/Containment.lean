import DeployClient.Proofs.ParentPaths

/-!
Where a path leads if only its text is asked.

The parts between the slashes are followed one by one, from the root or from the working directory.
Joining and taking the normal form come to the same, so a path is resolved exactly if the names of
the working directory are the first of those that it leads to.
-/

namespace DeployClient.Path

open FileSystem (steps)
open Bytes (slash dot)

variable {names start : List Bytes} {workingDir p : Path}

/-! ### Following the parts -/

/-- Goes on by one part: a dot stays, and two dots take back the last name, if there is one. -/
def turn (names : List Bytes) (part : Bytes) : List Bytes :=
  if part = [dot] then names
  else if part = [dot, dot] then names.dropLast
  else names ++ [part]

/-- The names that a path leads to, as seen from the working directory. -/
def placeOf (workingDir p : Path) : List Bytes :=
  (steps p.bytes).foldl turn (if p.isAbsolute then [] else steps workingDir.bytes)

lemma turn_name {name : Bytes} (h : IsName name) (names : List Bytes) :
    turn names name = names ++ [name] := by
  rw [turn, if_neg h.2.2.1, if_neg h.2.2.2]

lemma foldl_turn_names (h : ∀ n ∈ names, IsName n) (start : List Bytes) :
    names.foldl turn start = start ++ names := by
  induction names generalizing start with
  | nil => simp
  | cons name names ih =>
    rw [List.foldl_cons, turn_name (h name List.mem_cons_self),
      ih fun n hn => h n (List.mem_cons_of_mem _ hn), List.append_assoc, List.singleton_append]

/-- What is followed are names, if the parts hold no slash. -/
lemma isName_of_mem_foldl_turn {parts : List Bytes} (hstart : ∀ n ∈ start, IsName n)
    (hparts : ∀ part ∈ parts, part ≠ [] ∧ slash ∉ part) :
    ∀ n ∈ parts.foldl turn start, IsName n := by
  induction parts generalizing start with
  | nil => exact hstart
  | cons part parts ih =>
    obtain ⟨hnil, hslash⟩ := hparts part List.mem_cons_self
    refine ih ?_ fun q hq => hparts q (List.mem_cons_of_mem _ hq)
    intro n hn
    unfold turn at hn
    split at hn
    · exact hstart n hn
    · next hdot =>
      split at hn
      · exact hstart n (List.dropLast_subset _ hn)
      · next hdots =>
        rcases List.mem_append.mp hn with hn | hn
        · exact hstart n hn
        · rw [List.mem_singleton.mp hn]
          exact ⟨hnil, hslash, hdot, hdots⟩

lemma of_mem_steps {b part : Bytes} (h : part ∈ steps b) : part ≠ [] ∧ slash ∉ part := by
  obtain ⟨hmem, hnil⟩ := List.mem_filter.mp h
  exact ⟨by simpa using hnil, slash_notMem_of_mem_splitOn hmem⟩

/-- Components are followed as the parts are that they stand for. -/
lemma foldl_follow_parts (parts start : List Bytes) :
    (parts.filterMap Component.ofPart).foldl follow start
      = (parts.filter (· ≠ [])).foldl turn start := by
  induction parts generalizing start with
  | nil => rfl
  | cons part parts ih =>
    by_cases hnil : part = []
    · rw [List.filterMap_cons_none (by simp [Component.ofPart, hnil]),
        List.filter_cons_of_neg (by simpa using hnil), ih]
    · rw [List.filter_cons_of_pos (by simpa using hnil), List.foldl_cons, ← ih]
      by_cases hdot : part = [dot]
      · rw [List.filterMap_cons_none (by simp [Component.ofPart, hdot]), turn, if_pos hdot]
      · by_cases hdots : part = [dot, dot]
        · have hof : Component.ofPart part = some .parent := by
            rw [Component.ofPart, if_neg (not_or.mpr ⟨hnil, hdot⟩), if_pos hdots]
          rw [List.filterMap_cons_some hof, turn, if_neg hdot, if_pos hdots]
          rfl
        · have hof : Component.ofPart part = some (.normal part) :=
            ofPart_eq_normal_iff.mpr ⟨rfl, hnil, hdot, hdots⟩
          rw [List.filterMap_cons_some hof, turn, if_neg hdot, if_neg hdots]
          rfl

/-! ### Normal forms -/

/-- **The normal form of an absolute path** is where its parts lead from the root. -/
theorem normalize_eq (habs : p.isAbsolute = true) :
    p.normalize = ofNames true ((steps p.bytes).foldl turn []) := by
  have hcollapse : collapse p.components = (steps p.bytes).foldl turn [] := by
    rw [components, if_pos habs, collapse, List.foldl_cons]
    exact foldl_follow_parts p.parts []
  rw [normalize, habs, hcollapse]

lemma normalize_ofNames (h : ∀ n ∈ names, IsName n) :
    (ofNames true names).normalize = ofNames true names := by
  rw [normalize_eq (isAbsolute_ofNames names), FileSystem.steps_ofNames h, foldl_turn_names h,
    List.nil_append]

lemma steps_join (h : ∀ n ∈ names, IsName n) (hrel : p.isAbsolute = false) :
    steps ((ofNames true names).join p).bytes = names ++ steps p.bytes := by
  rw [join, hrel]
  by_cases hnil : names = []
  · subst hnil
    show steps (slash :: p.bytes) = _
    rw [steps_slash, List.nil_append]
  · have hlast := getLast?_ofNames h hnil
    have hbytes : (ofNames true names).bytes ≠ [] := by simp [ofNames]
    simp only [Bool.false_eq_true, if_false]
    rw [if_neg (not_or.mpr ⟨hbytes, hlast⟩)]
    show steps ((ofNames true names).bytes ++ slash :: p.bytes) = _
    rw [steps_eq, List.splitOn_append_cons_self, List.filter_append, ← steps_eq, ← steps_eq,
      FileSystem.steps_ofNames h]

/-- A path as seen from a directory. -/
theorem normalize_join (h : ∀ n ∈ names, IsName n) (p : Path) :
    ((ofNames true names).join p).normalize = ofNames true (placeOf (ofNames true names) p) := by
  rw [placeOf, FileSystem.steps_ofNames h]
  by_cases habs : p.isAbsolute = true
  · rw [join, habs, if_pos rfl, if_pos rfl, normalize_eq habs]
  · have hrel : p.isAbsolute = false := by simpa using habs
    rw [normalize_eq (isAbsolute_join (isAbsolute_ofNames names)), steps_join h hrel,
      List.foldl_append, foldl_turn_names h, List.nil_append, if_neg habs]

lemma isName_of_mem_placeOf (h : ∀ n ∈ names, IsName n) (p : Path) :
    ∀ n ∈ placeOf (ofNames true names) p, IsName n := by
  refine isName_of_mem_foldl_turn ?_ fun part => of_mem_steps
  rw [FileSystem.steps_ofNames h]
  split
  · simp
  · exact h

/-! ### Containment -/

lemma startsWith_ofNames_iff {others : List Bytes} (h : ∀ n ∈ names, IsName n)
    (h' : ∀ n ∈ others, IsName n) :
    (ofNames true names).startsWith (ofNames true others) = true ↔ others <+: names := by
  rw [startsWith_iff, components_ofNames h, components_ofNames h', List.prefix_cons_inj]
  exact List.prefix_map_iff_of_injective fun _ _ e => Component.normal.inj e

lemma resolveWithin_ofNames (h : ∀ n ∈ names, IsName n) (p : Path) :
    resolveWithin (ofNames true names) p
      = if names <+: placeOf (ofNames true names) p then
          some (ofNames true (placeOf (ofNames true names) p))
        else none := by
  simp only [resolveWithin, normalize_join h]
  simp only [startsWith_ofNames_iff (isName_of_mem_placeOf h p) h]

/-- **A path is resolved exactly if it leads into the working directory**, by whole names, and then
to the path of the names that it leads to. That path has no dots, and resolving it again changes
nothing. -/
theorem resolveWithin_lexical (habs : workingDir.isAbsolute = true)
    (hnormal : workingDir.normalize = workingDir) (p : Path) :
    resolveWithin workingDir p
        = (if steps workingDir.bytes <+: placeOf workingDir p then
            some (ofNames true (placeOf workingDir p))
          else none)
      ∧ ∀ q, resolveWithin workingDir p = some q →
        q.components = .root :: (placeOf workingDir p).map .normal
          ∧ .current ∉ q.components ∧ .parent ∉ q.components
          ∧ resolveWithin workingDir q = some q := by
  obtain ⟨names, hw, hnames⟩ := isNormal_normalize habs
  obtain rfl := hnormal.symm.trans hw
  have hplace := isName_of_mem_placeOf hnames p
  have hresolve := resolveWithin_ofNames hnames p
  refine ⟨by rwa [FileSystem.steps_ofNames hnames], fun q hq => ?_⟩
  rw [hresolve] at hq
  split at hq
  · next hinside =>
    obtain rfl := Option.some.inj hq
    -- what is resolved is absolute, so it leads to its own names
    have hagain : placeOf (ofNames true names) (ofNames true (placeOf (ofNames true names) p))
        = placeOf (ofNames true names) p := by
      rw [placeOf.eq_1 _ (ofNames true _), if_pos (isAbsolute_ofNames _),
        FileSystem.steps_ofNames hplace, foldl_turn_names hplace, List.nil_append]
    have hcomponents := components_ofNames hplace
    refine ⟨hcomponents, ?_, ?_, ?_⟩
    · rw [hcomponents]
      simp
    · rw [hcomponents]
      simp
    · rw [resolveWithin_ofNames hnames, hagain, if_pos hinside]
  · simp at hq

/-- Out of the working directory and above the root, and back in; and a name that only begins like
that of the working directory. -/
theorem resolveWithin_lexical_detour :
    let workingDir := ofText "/home/a"
    resolveWithin workingDir (ofText "x/../..//../../home/./a/b/") = some (ofText "/home/a/b")
      ∧ resolveWithin workingDir (ofText "/home/a/b") = some (ofText "/home/a/b")
      ∧ resolveWithin workingDir (ofText "../ab") = none := by
  intro workingDir
  have habs : workingDir.isAbsolute = true := by decide
  have hnormal : workingDir.normalize = workingDir := by decide
  have hback := resolveWithin_lexical habs hnormal (ofText "x/../..//../../home/./a/b/")
  have hbeside := (resolveWithin_lexical habs hnormal (ofText "../ab")).1
  have hinside : resolveWithin workingDir (ofText "x/../..//../../home/./a/b/")
      = some (ofText "/home/a/b") := hback.1.trans (by decide)
  exact ⟨hinside, (hback.2 _ hinside).2.2.2, hbeside.trans (by decide)⟩

end DeployClient.Path
