import DeployClient.Archive.Build
import DeployClient.Proofs.Containment
import DeployClient.Proofs.FollowedLinks

/-!
Paths that never lead up.

The normal form of a path takes two dots for the part before them, while a file system goes to
the parent of whatever that part leads to. Without two dots the two agree: only single dots are
left out, and the current directory is put in front.
-/

namespace DeployClient

open DeployClient.Path (IsName ofNames joinNames collapse)
open FileSystem (Rooted steps)
open Bytes (slash dot)

/-! ### Normal forms -/

namespace Path

variable {names : List Bytes} {p : Path}

/-- The names that a path leads down, if it never leads up. -/
def namesOf (p : Path) : List Bytes := (steps p.bytes).filter (· ≠ [dot])

lemma isName_of_mem_namesOf (h : [dot, dot] ∉ steps p.bytes) : ∀ n ∈ p.namesOf, IsName n := by
  intro n hn
  obtain ⟨hstep, hdot⟩ := List.mem_filter.mp hn
  obtain ⟨hpart, hne⟩ := List.mem_filter.mp hstep
  refine ⟨by simpa using hne, slash_notMem_of_mem_splitOn hpart, by simpa using hdot, ?_⟩
  rintro rfl
  exact h hstep

/-- Where no parts lead up, all but the single dots are names to go down by. -/
lemma foldl_turn_straight {parts : List Bytes} (h : [dot, dot] ∉ parts) (start : List Bytes) :
    parts.foldl turn start = start ++ parts.filter (· ≠ [dot]) := by
  induction parts generalizing start with
  | nil => simp
  | cons part parts ih =>
    have hrest := ih fun hmem => h (List.mem_cons_of_mem _ hmem)
    rw [List.foldl_cons, turn]
    by_cases hdot : part = [dot]
    · rw [if_pos hdot, hrest, List.filter_cons_of_neg (by simpa using hdot)]
    · have hdots : part ≠ [dot, dot] := by
        rintro rfl
        exact h List.mem_cons_self
      rw [if_neg hdot, if_neg hdots, hrest, List.filter_cons_of_pos (by simpa using hdot),
        List.append_assoc, List.singleton_append]

/-- A path that never leads up, as seen from a directory. -/
lemma normalize_join_straight (h : ∀ n ∈ names, IsName n) (hp : [dot, dot] ∉ steps p.bytes) :
    ((ofNames true names).join p).normalize
      = ofNames true ((if p.isAbsolute then [] else names) ++ p.namesOf) := by
  rw [normalize_join h, placeOf, FileSystem.steps_ofNames h, foldl_turn_straight hp]
  rfl

end Path

/-! ### Ways -/

namespace FileSystem

variable {fs : FileSystem} {links : Nat} {slashed : Bool} {names front rest ns : List Bytes}
  {place : Place} {d n : Node} {p : Path}

/-- The same steps, without some of the dots. -/
inductive Undotted : List Bytes → List Bytes → Prop
  | nil : Undotted [] []
  | keep {l m : List Bytes} (part : Bytes) (h : Undotted l m) : Undotted (part :: l) (part :: m)
  | drop {l m : List Bytes} (h : Undotted l m) : Undotted ([dot] :: l) m

lemma Undotted.append (h : Undotted names rest) (front : List Bytes) :
    Undotted (front ++ names) (front ++ rest) := by
  induction front with
  | nil => exact h
  | cons part front ih => exact .keep part ih

lemma undotted_filter (l : List Bytes) : Undotted l (l.filter (· ≠ [dot])) := by
  induction l with
  | nil => exact .nil
  | cons part l ih =>
    by_cases hdot : part = [dot]
    · subst hdot
      rw [List.filter_cons_of_neg (by simp)]
      exact .drop ih
    · rw [List.filter_cons_of_pos (by simpa using hdot)]
      exact .keep part ih

/-- Dots make no difference on the way to a directory. -/
theorem follow_undotted {l m : List Bytes} (h : Undotted l m) (hd : d.isDirectory = true)
    (hgo : fs.resolveFrom .follow links slashed names l = .ok (.taken ns d)) (b : Bool) :
    fs.resolveFrom .follow links b names m = .ok (.taken ns d) := by
  induction links using Nat.strongRecOn generalizing slashed b names l m with
  | _ links ihlinks =>
    induction h generalizing names with
    | nil =>
      rw [resolveFrom_nil] at hgo ⊢
      exact hgo
    | drop h ih =>
      cases (pursuit_of_ok hgo).2 with
      | here hpart hgo => exact ih hgo
      | up hpart => simp at hpart
      | free plain => exact absurd rfl plain.ne_dot
      | link plain => exact absurd rfl plain.ne_dot
      | node plain => exact absurd rfl plain.ne_dot
    | @keep l m part h ih =>
      obtain ⟨hplace, hpursuit⟩ := pursuit_of_ok hgo
      apply ok_of_pursuit hplace
      cases hpursuit with
      | here hpart hgo => exact .here hpart (ih hgo)
      | up hpart hgo => exact .up hpart (ih hgo)
      | free plain hnode hrest hfree => simp at hfree
      | link plain hnode hlinks hnext =>
        subst hlinks
        exact .link plain hnode rfl (ihlinks _ (Nat.lt_succ_self _) (h.append _) hnext _)
      | @node plain k hnode hlink hend hgo =>
        have hk : k.isDirectory = true := by
          rcases hend with hk | ⟨rfl, -⟩
          · exact hk
          · rw [resolveFrom_nil, standing_eq hnode] at hgo
            obtain ⟨-, rfl⟩ := Place.taken.inj (Except.ok.inj hgo)
            exact hd
        exact .node plain hnode hlink (.inl hk) (ih hgo)

lemma descend?_symlink {stamp : Stamp} {target : Bytes} (hrest : rest ≠ []) :
    Node.descend? rest (.symlink stamp target) = none := by
  obtain ⟨name, rest, rfl⟩ := List.exists_cons_of_ne_nil hrest
  rfl

/-- Steps down along the tree can be taken at once. -/
lemma follow_down (hfront : ∀ m ∈ front, IsName m) (hat : fs.nodeAt? (names ++ front) = some d)
    (hd : d.isSymlink = false)
    (h : fs.resolveFrom .follow links slashed names (front ++ rest) = .ok place) :
    fs.resolveFrom .follow links slashed (names ++ front) rest = .ok place := by
  induction front generalizing names with
  | nil => simpa using h
  | cons part front ih =>
    have hpart := hfront part List.mem_cons_self
    have hassoc : names ++ part :: front = names ++ [part] ++ front := by simp
    rw [hassoc] at hat ⊢
    have hdescend : (fs.nodeAt? (names ++ [part])).bind (Node.descend? front) = some d := by
      rw [← hat, nodeAt?, nodeAt?, Node.descend?_append (names ++ [part])]
    cases (pursuit_of_ok h).2 with
    | here hdot => exact absurd hdot hpart.2.2.1
    | up hdots => exact absurd hdots hpart.2.2.2
    | free plain hnode =>
      rw [hnode] at hdescend
      simp at hdescend
    | link plain hnode hlinks hgo =>
      rw [hnode, Option.bind_some] at hdescend
      by_cases hnil : front = []
      · subst hnil
        obtain rfl := Option.some.inj hdescend
        simp [Node.isSymlink] at hd
      · rw [descend?_symlink hnil] at hdescend
        simp at hdescend
    | node plain hnode hlink hend hgo =>
      exact ih (fun m hm => hfront m (List.mem_cons_of_mem _ hm)) hat hgo

lemma isName_of_descend? {n : Node} (hn : n.isProper = true)
    (h : Node.descend? names n = some d) : ∀ m ∈ names, IsName m := by
  induction names generalizing n with
  | nil => simp
  | cons name names ih =>
    rw [Node.descend?_cons] at h
    obtain ⟨k, hk, h⟩ := Option.bind_eq_some_iff.mp h
    obtain ⟨hname, hproper⟩ := Node.of_mem_entries hn (Node.mem_of_entry_eq hk)
    intro m hm
    rcases List.mem_cons.mp hm with rfl | hm
    · exact hname
    · exact ih hproper h m hm

/-- **A path that never leads up leads to where its normal form does**, unless a link stands
there. -/
theorem eq_of_straight (hproper : fs.root.isProper = true) (hfs : Rooted fs)
    (hp : [dot, dot] ∉ steps p.bytes) (h : fs.stat p = .ok d) (hd : d.isDirectory = true)
    (hl : fs.lstat ((ofNames true fs.cwd).join p).normalize = .ok n)
    (hn : n.isSymlink = false) : n = d := by
  obtain ⟨c, hc⟩ := Option.isSome_iff_exists.mp hfs.cwd
  have hcwd := isName_of_descend? hproper hc
  have hnames := Path.isName_of_mem_namesOf hp
  obtain ⟨ms, h⟩ := stat_eq_ok_iff.mp h
  have htakes := takes_of_resolve h
  rw [resolve_of_takes htakes] at h
  have hstartDir := isDirectory_start hfs htakes.nonempty h
  obtain ⟨start, hstart⟩ :
      ∃ start, fs.nodeAt? (if p.isAbsolute then [] else fs.cwd) = some start := by
    split
    · exact ⟨fs.root, rfl⟩
    · exact ⟨c, hc⟩
  rw [standing_eq hstart] at hstartDir
  rw [Path.normalize_join_straight hcwd hp] at hl
  generalize hwhere : (if p.isAbsolute then [] else fs.cwd) = place at h hl hstart
  have hplaceNames : ∀ m ∈ place, IsName m := by
    rw [← hwhere]
    split
    · simp
    · exact hcwd
  have hall : ∀ m ∈ place ++ p.namesOf, IsName m := by
    intro m hm
    rcases List.mem_append.mp hm with hm | hm
    · exact hplaceNames m hm
    · exact hnames m hm
  obtain ⟨ns, hl⟩ := lstat_eq_ok_iff.mp hl
  rw [resolve_of_takes (takes_of_resolve hl), if_pos (Path.isAbsolute_ofNames _),
    steps_ofNames hall] at hl
  have hlink : start.isSymlink = false := by
    cases start with
    | directory stamp entries => rfl
    | _ => simp [Node.isDirectory] at hstartDir
  have hdown := follow_down hplaceNames (by simpa using hstart) hlink (resolveFrom_follow hn hl)
  have hsame := follow_undotted (undotted_filter _) hd h
    (endsWithSlash (ofNames true (place ++ p.namesOf)).bytes)
  exact (Place.taken.inj (Except.ok.inj (hdown.symm.trans hsame))).2

end FileSystem

end DeployClient
