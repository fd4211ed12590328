import DeployClient.Proofs.Candidates
import DeployClient.Proofs.ParentPaths
import DeployClient.Proofs.WalkOrder
import Mathlib.Tactic.FinCases

/-!
Runs of a walk.

Each path that a walk shows is looked up once more when its turn comes. What lies below a directory
is found there again, unless the path has become too long to be looked up or leads through a
directory that may not be searched. A directory that may not be listed is the last that is visited.
-/

namespace DeployClient

open DeployClient.Path (IsName)
open Bytes (slash dot)

namespace FileSystem

variable {fs : FileSystem} {links : ℕ} {slashed : Bool} {names ns front rest : List Bytes}
  {place : Place} {root p : Path} {d k n : Node}

/-! ### Looking up what lies below a directory -/

/-- A path that can be looked up, whatever it leads to. -/
structure Bearable (p : Path) : Prop where
  text : 0 ∉ p.bytes
  length : p.bytes.length < maxPath
  parts : ∀ part ∈ steps p.bytes, part.length ≤ maxName

lemma length_of_resolveFrom (h : fs.resolveFrom .inspect links slashed names rest = .ok place) :
    ∀ part ∈ rest, part.length ≤ maxName := by
  induction links using Nat.strongRecOn generalizing slashed names rest with
  | _ links ihlinks =>
    induction rest generalizing names with
    | nil => simp
    | cons first rest ih =>
      suffices hall : first.length ≤ maxName ∧ ∀ part ∈ rest, part.length ≤ maxName by
        simpa using hall
      cases (stride_of_ok h).2 with
      | here hpart h => exact ⟨by simp [hpart, maxName], ih h⟩
      | up hpart h => exact ⟨by simp [hpart, maxName], ih h⟩
      | free plain hnode hrest h => exact ⟨plain.length, by simp [hrest]⟩
      | link_end plain hnode hrest hslashed h => exact ⟨plain.length, by simp [hrest]⟩
      | link plain hnode hend hlinks hgo =>
        subst hlinks
        exact ⟨plain.length, fun part hpart =>
          ihlinks _ (Nat.lt_succ_self _) hgo part (List.mem_append_right _ hpart)⟩
      | node plain hnode hlink hend h => exact ⟨plain.length, ih h⟩

lemma bearable_of_lstat (h : fs.lstat p = .ok n) : Bearable p := by
  have htakes := takes_of_lstat h
  obtain ⟨ms, h⟩ := lstat_eq_ok_iff.mp h
  rw [resolve_of_takes htakes] at h
  exact ⟨htakes.text, htakes.length, length_of_resolveFrom h⟩

/-- Names can be put behind a way that leads to a directory. -/
lemma resolveFrom_front (hrest : rest ≠ []) (hd : d.isDirectory = true)
    (h : fs.resolveFrom .inspect links slashed names front = .ok (.taken ns d)) :
    ∃ l, fs.resolveFrom .inspect links false names (front ++ rest)
      = fs.resolveFrom .inspect l false ns rest := by
  induction links using Nat.strongRecOn generalizing slashed names front with
  | _ links ihlinks =>
    induction front generalizing names with
    | nil =>
      rw [resolveFrom_nil] at h
      obtain ⟨rfl, -⟩ := Place.taken.inj (Except.ok.inj h)
      exact ⟨links, rfl⟩
    | cons part front ih =>
      have hne : front ++ rest ≠ [] := by simp [hrest]
      obtain ⟨hplace, hstride⟩ := stride_of_ok h
      rw [List.cons_append, resolveFrom_cons, if_neg (by simp [hplace]), if_neg (by simp)]
      cases hstride with
      | here hpart h =>
        rw [if_pos hpart]
        exact ih h
      | up hpart h =>
        rw [if_neg (by simp [hpart]), if_pos hpart]
        exact ih h
      | free plain hnode hfront h => simp at h
      | link_end plain hnode hfront hslashed h =>
        obtain ⟨-, rfl⟩ := Place.taken.inj h
        simp [Node.isDirectory] at hd
      | @link plain stamp target hnode hend l hlinks hgo =>
        subst hlinks
        obtain ⟨l', hl⟩ := ihlinks l (Nat.lt_succ_self _) hgo
        refine ⟨l', ?_⟩
        rw [if_neg plain.ne_dot, if_neg plain.ne_dots, if_neg (Nat.not_lt.mpr plain.length), hnode]
        simpa [hne, settle] using hl
      | @node plain m hnode hlink hend h =>
        have hm : m.isDirectory = true := by
          rcases hend with hm | ⟨rfl, -⟩
          · exact hm
          · rw [resolveFrom_nil, standing_eq hnode] at h
            obtain ⟨-, rfl⟩ := Place.taken.inj (Except.ok.inj h)
            exact hd
        obtain ⟨l, hl⟩ := ih h
        refine ⟨l, ?_⟩
        rw [if_neg plain.ne_dot, if_neg plain.ne_dots, if_neg (Nat.not_lt.mpr plain.length), hnode]
        cases m with
        | directory stamp es => simpa [Node.isDirectory] using hl
        | _ => simp [Node.isDirectory] at hm

lemma isDirectory_of_descend? (hne : names ≠ []) (h : Node.descend? names d = some k) :
    d.isDirectory = true := by
  obtain ⟨name, names, rfl⟩ := List.exists_cons_of_ne_nil hne
  cases d with
  | directory stamp es => rfl
  | _ => simp [Node.descend?_cons, Node.entry?, Node.entries] at h

/-- The directories on the way down along the names may all be searched. -/
def OpenAlong (fs : FileSystem) : Node → List Bytes → Prop
  | _, [] => True
  | d, name :: rest => fs.allows .search d = true
    ∧ ∀ k, d.entry? name = some k → OpenAlong fs k rest

lemma openAlong_cons {name : Bytes} (h : d.entry? name = some k) :
    OpenAlong fs d (name :: rest) ↔ fs.allows .search d = true ∧ OpenAlong fs k rest := by
  rw [OpenAlong, h]
  simp

lemma openAlong_concat {name : Bytes} (h : d.descend? names = some k) :
    OpenAlong fs d (names ++ [name]) ↔ OpenAlong fs d names ∧ fs.allows .search k = true := by
  induction names generalizing d with
  | nil =>
    obtain rfl := Option.some.inj h
    simp [OpenAlong]
  | cons first names ih =>
    rw [Node.descend?_cons] at h
    obtain ⟨m, hm, hk⟩ := Option.bind_eq_some_iff.mp h
    rw [List.cons_append, openAlong_cons hm, openAlong_cons hm, ih hk, and_assoc]

/-- How a look-up ends: the node is found, or a name is too long, or a directory on the way may not
be searched. -/
inductive LooksUp {α : Type} (r : Except OsError α) (found : α) (refusal : OsError)
    (bearable passable : Prop) : Prop
  | found (h : r = .ok found) (hb : bearable) (hp : passable)
  | refused (h : r = .error refusal) (hb : ¬ bearable)
  | barred (h : r = .error .permissionDenied) (hp : ¬ passable)

/-- The way down along the names of a tree. -/
lemma resolveFrom_descend (hnames : ∀ m ∈ rest, IsName m) (hd : fs.nodeAt? ns = some d)
    (hk : d.descend? rest = some k) :
    LooksUp (fs.resolveFrom .inspect links false ns rest) (.taken (ns ++ rest) k) .nameTooLong
      (∀ m ∈ rest, m.length ≤ maxName) (OpenAlong fs d rest) := by
  induction rest generalizing ns d with
  | nil =>
    obtain rfl := Option.some.inj hk
    rw [resolveFrom_nil, standing_eq hd, List.append_nil]
    exact .found rfl (by simp) trivial
  | cons name rest ih =>
    have hdir := isDirectory_of_descend? (by simp) hk
    have hname := hnames name List.mem_cons_self
    rw [Node.descend?_cons] at hk
    obtain ⟨m, hm, hk⟩ := Option.bind_eq_some_iff.mp hk
    rw [openAlong_cons hm, resolveFrom_cons]
    by_cases hsearch : fs.allows .search d = true
    · have hplace : fs.isPlace ns = true := by simp [isPlace, hd, hdir, hsearch]
      have hnode : fs.nodeAt? (ns ++ [name]) = some m := by
        rw [nodeAt?_concat, hd, Option.bind_some, hm]
      rw [if_neg (by simp [hplace]), if_neg (by simp), if_neg hname.2.2.1, if_neg hname.2.2.2]
      by_cases hlength : name.length ≤ maxName
      · have hgo := ih (fun m hm => hnames m (List.mem_cons_of_mem _ hm)) hnode hk
        rw [if_neg (Nat.not_lt.mpr hlength), hnode]
        simp only [List.append_assoc, List.singleton_append] at hgo
        simp only [List.forall_mem_cons, hlength, hsearch, true_and]
        -- only a directory can have more names behind it
        by_cases hrest : rest = []
        · subst hrest
          cases m <;> simpa [Node.isDirectory] using hgo
        · have hm := isDirectory_of_descend? hrest hk
          cases m with
          | directory stamp es => simpa [Node.isDirectory] using hgo
          | _ => simp [Node.isDirectory] at hm
      · rw [if_pos (Nat.lt_of_not_le hlength)]
        exact .refused rfl fun h => hlength (h name List.mem_cons_self)
    · have hplace : fs.isPlace ns = false := by simp [isPlace, hd, hsearch]
      have hrefusal : fs.refusalAt ns = .permissionDenied := by simp [refusalAt, hd, hdir]
      rw [if_pos (by simp [hplace]), hrefusal]
      exact .barred rfl fun h => hsearch h.1

/-- Why a path that cannot be looked up is refused. -/
def refusalOf (p : Path) : OsError := if 0 ∈ p.bytes then .nulInPath else .nameTooLong

/-- What can be reached through directories that may be searched. -/
inductive Reaches (fs : FileSystem) (root : Path) (d : Node) : Path → Node → Prop
  | self : Reaches fs root d root d
  | child {p : Path} {n : Node} {name : Bytes} {k : Node} (h : Reaches fs root d p n)
      (search : fs.allows .search n = true) (hmem : (name, k) ∈ n.entries) :
      Reaches fs root d (p.child name) k

/-- The path leads to its node, if it can be looked up and the way to it is open; and otherwise it
is refused for one of these reasons. -/
def StandsAt (fs : FileSystem) (root : Path) (d : Node) (p : Path) (n : Node) : Prop :=
  LooksUp (fs.lstat p) n (refusalOf p) (Bearable p) (Reaches fs root d p n)

lemma StandsAt.eq_of_ok {m : Node} (h : StandsAt fs root d p n) (hm : fs.lstat p = .ok m) :
    m = n := by
  cases h with
  | found hn hb hp => exact Except.ok.inj (hm.symm.trans hn)
  | refused he hb => simp [hm] at he
  | barred he hp => simp [hm] at he

lemma lstat_of_not_takes (h : 0 ∈ p.bytes ∨ maxPath ≤ p.bytes.length) (hp : p.bytes ≠ []) :
    fs.lstat p = .error (refusalOf p) := by
  by_cases h0 : 0 ∈ p.bytes
  · simp [lstat, FileSystem.node, resolve, refusalOf, h0]
  · have hlength := h.resolve_left h0
    simp [lstat, FileSystem.node, resolve, refusalOf, h0, hp, hlength]

/-- The names lead from the root to the node, and along its path. -/
structure Along (root : Path) (d : Node) (names : List Bytes) (p : Path) (n : Node) : Prop where
  path : root.Extends names p
  node : d.descend? names = some n
  proper : n.isProper = true
  start : names = [] → p = root

lemma Along.self (hroot : root.bytes ≠ []) (hd : d.isProper = true) : Along root d [] root d :=
  ⟨Path.extends_self hroot, rfl, hd, fun _ => rfl⟩

lemma Along.child {name : Bytes} (h : Along root d names p n) (hmem : (name, k) ∈ n.entries) :
    Along root d (names ++ [name]) (p.child name) k := by
  obtain ⟨hname, hk⟩ := Node.of_mem_entries h.proper hmem
  refine ⟨h.path.child hname, ?_, hk, by simp⟩
  rw [Node.descend?_append, h.node, Option.bind_some, Node.descend?_cons,
    Node.entry?_of_mem h.proper hmem]
  rfl

/-- What stands below a directory is found at its path. -/
lemma Along.looksUp (hroot : fs.lstat root = .ok d) (halong : Along root d names p k) :
    LooksUp (fs.lstat p) k (refusalOf p) (Bearable p) (OpenAlong fs d names) := by
  obtain ⟨hp, hk, -, hstart⟩ := halong
  by_cases hne : names = []
  · subst hne
    obtain rfl := Option.some.inj hk
    obtain rfl := hstart rfl
    exact .found hroot (bearable_of_lstat hroot) trivial
  have htakes := takes_of_lstat hroot
  obtain ⟨ns, hgo⟩ := lstat_eq_ok_iff.mp hroot
  have hdir := isDirectory_of_descend? hne hk
  have hat : fs.nodeAt? ns = some d := by
    rw [resolve_of_takes htakes] at hgo
    have hstanding := standing_of_taken hgo
    cases hnode : fs.nodeAt? ns with
    | none =>
      obtain ⟨name, names, rfl⟩ := List.exists_cons_of_ne_nil hne
      simp [hstanding, standing, hnode, Node.descend?_cons, Node.entry?, Node.entries] at hk
    | some m => rw [hstanding, standing_eq hnode]
  by_cases hbad : 0 ∈ p.bytes ∨ maxPath ≤ p.bytes.length
  · refine .refused (lstat_of_not_takes hbad hp.nonempty) fun h => ?_
    rcases hbad with h0 | hlength
    · exact h.text h0
    · exact absurd h.length (Nat.not_lt.mpr hlength)
  · obtain ⟨h0, hlength⟩ := not_or.mp hbad
    have hptakes : Takes p := ⟨h0, hp.nonempty, Nat.lt_of_not_le hlength⟩
    rw [resolve_of_takes htakes] at hgo
    obtain ⟨l, hl⟩ := resolveFrom_front hne hdir hgo
    have hway : fs.resolve .inspect p = fs.resolveFrom .inspect l false ns names := by
      rw [resolve_of_takes hptakes, hp.slashed hne, hp.isAbsolute, hp.steps, hl]
    cases @resolveFrom_descend _ l _ _ _ _ hp.isName hat hk with
    | found h hb hopen =>
      have hfound : fs.lstat p = .ok k := lstat_eq_ok_iff.mpr ⟨_, hway.trans h⟩
      exact .found hfound (bearable_of_lstat hfound) hopen
    | refused h hb =>
      refine .refused ?_ fun hbearable => hb fun m hm => hbearable.parts m ?_
      · rw [lstat, FileSystem.node, hway, h, refusalOf, if_neg h0]
      · rw [hp.steps]
        exact List.mem_append_right _ hm
    | barred h hopen =>
      refine .barred ?_ hopen
      rw [lstat, FileSystem.node, hway, h]

/-- The way to what is reached is open if the directories that are passed may be searched. -/
lemma exists_along (hroot : root.bytes ≠ []) (hd : d.isProper = true)
    (h : Node.Descends root d p n) :
    ∃ names, Along root d names p n ∧ (OpenAlong fs d names → Reaches fs root d p n) := by
  induction h with
  | self => exact ⟨[], .self hroot hd, fun _ => .self⟩
  | child _ hmem ih =>
    obtain ⟨names, halong, hreaches⟩ := ih
    refine ⟨_, halong.child hmem, fun hopen => ?_⟩
    obtain ⟨hopen, hsearch⟩ := (openAlong_concat halong.node).mp hopen
    exact .child (hreaches hopen) hsearch hmem

lemma Reaches.exists_along (hroot : root.bytes ≠ []) (hd : d.isProper = true)
    (h : Reaches fs root d p n) : ∃ names, Along root d names p n ∧ OpenAlong fs d names := by
  induction h with
  | self => exact ⟨[], .self hroot hd, trivial⟩
  | child _ hsearch hmem ih =>
    obtain ⟨names, halong, hopen⟩ := ih
    exact ⟨_, halong.child hmem, (openAlong_concat halong.node).mpr ⟨hopen, hsearch⟩⟩

/-- Where the way is open, a path is only refused for itself. -/
lemma Reaches.not_barred (hfs : fs.root.isProper = true) (hroot : fs.lstat root = .ok d)
    (h : Reaches fs root d p n) : fs.lstat p ≠ .error .permissionDenied := by
  intro hbarred
  obtain ⟨names, halong, hopen⟩ :=
    h.exists_along (takes_of_lstat hroot).nonempty (isProper_of_lstat hfs hroot)
  cases halong.looksUp hroot with
  | found hp => simp [hbarred] at hp
  | refused hp =>
    rw [hbarred, refusalOf] at hp
    split at hp <;> simp at hp
  | barred hp hclosed => exact hclosed hopen

/-- **What a walk shows is found at its path**, or the path is refused. -/
theorem standsAt_of_descends (hfs : fs.root.isProper = true) (hroot : fs.lstat root = .ok d)
    (h : Node.Descends root d p n) : StandsAt fs root d p n := by
  obtain ⟨names, halong, hreaches⟩ :=
    exists_along (takes_of_lstat hroot).nonempty (isProper_of_lstat hfs hroot) h
  cases halong.looksUp hroot with
  | found hp hb hopen => exact .found hp hb (hreaches hopen)
  | refused hp hb => exact .refused hp hb
  | barred hp hclosed => exact .barred hp fun hr => hr.not_barred hfs hroot hp

/-! ### Calls of the visitor -/

section

variable {ε σ : Type} {failed : WalkError → ε} {visit : Path → Node → EStateM ε σ Nat}
  {vs : List Visit} {s t u : σ} {c : ℕ} {e : ε}

/-- The visitor is called on one visit after the other, each time with success, and counts this
much. -/
inductive Visited (visit : Path → Node → EStateM ε σ Nat) : List Visit → σ → ℕ → σ → Prop
  | nil (s : σ) : Visited visit [] s 0 s
  | cons {v : Visit} {vs : List Visit} {s t u : σ} {a b : ℕ} (h : visit v.1 v.2 s = .ok a t)
      (hrest : Visited visit vs t b u) : Visited visit (v :: vs) s (a + b) u

/-- The path of the visit leads to its node, and a directory may be listed. -/
structure Shown (fs : FileSystem) (v : Visit) : Prop where
  found : fs.lstat v.1 = .ok v.2
  listed : fs.lists v.2 = true

/-- All visits before one have been made, and then its path is refused, or the visitor fails, or it
is a directory that may not be listed. -/
inductive CutShort (fs : FileSystem) (failed : WalkError → ε)
    (visit : Path → Node → EStateM ε σ Nat) (order : List Visit) (s : σ) (e : ε) (u : σ) : Prop
  | refused {before after : List Visit} {v : Visit} {c : ℕ} {os : OsError}
      (horder : order = before ++ v :: after) (hbefore : ∀ w ∈ before, Shown fs w)
      (hvisited : Visited visit before s c u) (hv : fs.lstat v.1 = .error os)
      (he : e = failed ⟨v.1, os⟩)
  | failed {before after : List Visit} {v : Visit} {c : ℕ} {t : σ}
      (horder : order = before ++ v :: after) (hbefore : ∀ w ∈ before, Shown fs w)
      (hvisited : Visited visit before s c t) (hv : fs.lstat v.1 = .ok v.2)
      (hfails : visit v.1 v.2 t = .error e u)
  | unlisted {before after : List Visit} {v : Visit} {c : ℕ}
      (horder : order = before ++ v :: after) (hbefore : ∀ w ∈ before, Shown fs w)
      (hvisited : Visited visit (before ++ [v]) s c u) (hv : fs.lstat v.1 = .ok v.2)
      (hlists : fs.lists v.2 = false) (he : e = failed ⟨v.1, .permissionDenied⟩)

lemma CutShort.cons {v : Visit} (hv : Shown fs v) (hfirst : visit v.1 v.2 s = .ok c t)
    (h : CutShort fs failed visit vs t e u) : CutShort fs failed visit (v :: vs) s e u := by
  cases h with
  | refused horder hbefore hvisited hw he =>
    exact .refused (by rw [horder, List.cons_append]) (List.forall_mem_cons.mpr ⟨hv, hbefore⟩)
      (.cons hfirst hvisited) hw he
  | failed horder hbefore hvisited hw hfails =>
    exact .failed (by rw [horder, List.cons_append]) (List.forall_mem_cons.mpr ⟨hv, hbefore⟩)
      (.cons hfirst hvisited) hw hfails
  | unlisted horder hbefore hvisited hw hlists he =>
    exact .unlisted (by rw [horder, List.cons_append]) (List.forall_mem_cons.mpr ⟨hv, hbefore⟩)
      (.cons hfirst hvisited) hw hlists he

lemma visitAll_of_shown {v : Visit} (hv : Shown fs v) (vs : List Visit) :
    fs.visitAll failed visit (v :: vs) = (do
      let added ← visit v.1 v.2
      let others ← fs.visitAll failed visit vs
      return added + others) := by
  rw [visitAll, hv.found]
  simp only [hv.listed, if_true]

lemma visitAll_of_refused {v : Visit} {os : OsError} (hv : fs.lstat v.1 = .error os)
    (vs : List Visit) (s : σ) :
    fs.visitAll failed visit (v :: vs) s = .error (failed ⟨v.1, os⟩) s := by
  rw [visitAll, hv]
  rfl

lemma visitAll_of_failed {v : Visit} (hv : fs.lstat v.1 = .ok v.2)
    (hfails : visit v.1 v.2 s = .error e u) (vs : List Visit) :
    fs.visitAll failed visit (v :: vs) s = .error e u := by
  rw [visitAll, hv]
  exact Archive.bind_of_error hfails

lemma visitAll_of_unlisted {v : Visit} (hv : fs.lstat v.1 = .ok v.2)
    (hlists : fs.lists v.2 = false) (hfirst : visit v.1 v.2 s = .ok c t) (vs : List Visit) :
    fs.visitAll failed visit (v :: vs) s = .error (failed ⟨v.1, .permissionDenied⟩) t := by
  rw [visitAll, hv]
  simp only [hlists, Bool.false_eq_true, if_false]
  rw [Archive.bind_of_ok hfirst]
  rfl

/-- What becomes of the first visit, and then of the others. -/
lemma visitAll_ends (h : ∀ v ∈ vs, ∀ n, fs.lstat v.1 = .ok n → n = v.2) (failed : WalkError → ε)
    (visit : Path → Node → EStateM ε σ Nat) (s : σ) :
    match fs.visitAll failed visit vs s with
    | .ok c u => (∀ v ∈ vs, Shown fs v) ∧ Visited visit vs s c u
    | .error e u => CutShort fs failed visit vs s e u := by
  induction vs generalizing s with
  | nil => exact ⟨by simp, .nil s⟩
  | cons v vs ih =>
    have hvs := ih fun w hw => h w (List.mem_cons_of_mem _ hw)
    rcases hl : fs.lstat v.1 with os | n
    · rw [visitAll_of_refused hl]
      exact .refused (List.nil_append _).symm (by simp) (.nil s) hl rfl
    · obtain rfl := h v List.mem_cons_self n hl
      rcases hfirst : visit v.1 v.2 s with ⟨a, t⟩ | ⟨e, u⟩
      · cases hlists : fs.lists v.2 with
        | false =>
          rw [visitAll_of_unlisted hl hlists hfirst]
          exact .unlisted (List.nil_append _).symm (by simp) (.cons hfirst (.nil t)) hl hlists rfl
        | true =>
          have hv : Shown fs v := ⟨hl, hlists⟩
          rw [visitAll_of_shown hv, Archive.bind_of_ok hfirst]
          have hrest := hvs t
          rcases hothers : fs.visitAll failed visit vs t with ⟨b, u⟩ | ⟨e, u⟩
          · rw [hothers] at hrest
            rw [Archive.bind_of_ok hothers]
            exact ⟨List.forall_mem_cons.mpr ⟨hv, hrest.1⟩, .cons hfirst hrest.2⟩
          · rw [hothers] at hrest
            rw [Archive.bind_of_error hothers]
            exact CutShort.cons hv hfirst hrest
      · rw [visitAll_of_failed hl hfirst]
        exact .failed (List.nil_append _).symm (by simp) (.nil s) hl hfirst

/-- Visits that succeed are made, and the walk goes on with the others. -/
lemma visitAll_append (hv : ∀ v ∈ vs, Shown fs v) (hvisited : Visited visit vs s c t)
    (failed : WalkError → ε) (rest : List Visit) :
    fs.visitAll failed visit (vs ++ rest) s = (do
      let others ← fs.visitAll failed visit rest
      return c + others : EStateM ε σ Nat) t := by
  induction hvisited with
  | nil s => simp only [List.nil_append, Nat.zero_add, bind_pure]
  | @cons v vs s t u a b hfirst hvisited ih =>
    have hgo := ih fun w hw => hv w (List.mem_cons_of_mem _ hw)
    rw [List.cons_append, visitAll_of_shown (hv v List.mem_cons_self), Archive.bind_of_ok hfirst]
    rcases hrest : fs.visitAll failed visit rest u with ⟨k, w⟩ | ⟨e, w⟩
    · rw [Archive.bind_of_ok hrest] at hgo ⊢
      rw [Archive.bind_of_ok hgo, Nat.add_assoc]
    · rw [Archive.bind_of_error hrest] at hgo ⊢
      rw [Archive.bind_of_error hgo]

lemma visitAll_eq_ok_iff (h : ∀ v ∈ vs, ∀ n, fs.lstat v.1 = .ok n → n = v.2) :
    fs.visitAll failed visit vs s = .ok c u
      ↔ (∀ v ∈ vs, Shown fs v) ∧ Visited visit vs s c u := by
  constructor
  · intro hrun
    have hends := visitAll_ends h failed visit s
    rw [hrun] at hends
    exact hends
  · rintro ⟨hv, hvisited⟩
    have happend := visitAll_append hv hvisited failed []
    rw [List.append_nil] at happend
    rw [happend]
    rfl

lemma Visited.exists_concat {v : Visit} (h : Visited visit (vs ++ [v]) s c u) :
    ∃ a t b, Visited visit vs s a t ∧ visit v.1 v.2 t = .ok b u := by
  induction vs generalizing s c with
  | nil =>
    cases h with
    | cons hfirst hrest =>
      cases hrest
      exact ⟨0, s, _, .nil s, hfirst⟩
  | cons w vs ih =>
    cases h with
    | cons hfirst hrest =>
      obtain ⟨a, t, b, hvisited, hlast⟩ := ih hrest
      exact ⟨_, t, b, .cons hfirst hvisited, hlast⟩

lemma visitAll_eq_error_iff (h : ∀ v ∈ vs, ∀ n, fs.lstat v.1 = .ok n → n = v.2) :
    fs.visitAll failed visit vs s = .error e u ↔ CutShort fs failed visit vs s e u := by
  constructor
  · intro hrun
    have hends := visitAll_ends h failed visit s
    rw [hrun] at hends
    exact hends
  · -- the visits before the last one are made, and that one ends the walk
    have hsplit : ∀ {before after : List Visit} {v : Visit} {a : ℕ} {t : σ},
        vs = before ++ v :: after → (∀ w ∈ before, Shown fs w) → Visited visit before s a t →
        fs.visitAll failed visit (v :: after) t = .error e u →
        fs.visitAll failed visit vs s = .error e u := by
      intro before after v a t horder hbefore hvisited hrest
      rw [horder, visitAll_append hbefore hvisited failed, Archive.bind_of_error hrest]
    intro hcut
    cases hcut with
    | refused horder hbefore hvisited hv he =>
      refine hsplit horder hbefore hvisited ?_
      rw [visitAll_of_refused hv, he]
    | failed horder hbefore hvisited hv hfails =>
      exact hsplit horder hbefore hvisited (visitAll_of_failed hv hfails _)
    | unlisted horder hbefore hvisited hv hlists he =>
      obtain ⟨a, t, b, hvisited, hlast⟩ := hvisited.exists_concat
      refine hsplit horder hbefore hvisited ?_
      rw [visitAll_of_unlisted hv hlists hlast, he]

/-! ### Whole walks -/

/-- All that can be reached from a root, each once, in the order of the paths. -/
structure InOrder (root : Path) (d : Node) (order : List Visit) : Prop where
  complete : ∀ p n, (p, n) ∈ order ↔ Node.Descends root d p n
  nodup : (order.map Prod.fst).Nodup
  increasing : order.Pairwise fun v w => v.1.Precedes w.1

lemma inOrder_visits (hroot : root.bytes ≠ []) (hd : d.isProper = true) :
    InOrder root d (d.visits root) := by
  have hincreasing := Node.visits_increasing hroot hd
  exact ⟨fun p n => Node.mem_visits_iff_descends,
    List.pairwise_map.mpr (hincreasing.imp fun h => h.ne), hincreasing⟩

lemma walk_of_directory (hroot : fs.lstat root = .ok d) (hd : d.isDirectory = true) :
    fs.walk root failed visit = fs.visitAll failed visit (d.visits root) := by
  rw [walk, Archive.visits_of_directory hroot hd]

/-- **A walk from a directory visits all that can be reached from it**, each path once and in
order, with the node that stands there, and adds up what the visitor returns. The first path
that is refused, the first failure of the visitor and the first directory that may not be listed
end it. A path is refused if it is too long or leads through a directory that may not be
searched. -/
theorem walk_in_order (hfs : fs.root.isProper = true) (hroot : fs.lstat root = .ok d)
    (hd : d.isDirectory = true) (failed : WalkError → ε) (visit : Path → Node → EStateM ε σ Nat)
    (s : σ) :
    InOrder root d (d.visits root)
      ∧ (∀ v ∈ d.visits root, StandsAt fs root d v.1 v.2)
      ∧ (∀ c u, fs.walk root failed visit s = .ok c u
        ↔ (∀ v ∈ d.visits root, Shown fs v) ∧ Visited visit (d.visits root) s c u)
      ∧ ∀ e u, fs.walk root failed visit s = .error e u
        ↔ CutShort fs failed visit (d.visits root) s e u := by
  have hproper := isProper_of_lstat hfs hroot
  have hstand : ∀ v ∈ d.visits root, StandsAt fs root d v.1 v.2 := fun v hv =>
    standsAt_of_descends hfs hroot (Node.mem_visits_iff_descends.mp hv)
  have hnode : ∀ v ∈ d.visits root, ∀ n, fs.lstat v.1 = .ok n → n = v.2 :=
    fun v hv n hn => (hstand v hv).eq_of_ok hn
  refine ⟨inOrder_visits (takes_of_lstat hroot).nonempty hproper, hstand, fun c u => ?_,
    fun e u => ?_⟩
  · rw [walk_of_directory hroot hd]
    exact visitAll_eq_ok_iff hnode
  · rw [walk_of_directory hroot hd]
    exact visitAll_eq_error_iff hnode

end

/-- A directory, what it holds and a link in it: `a/b` comes before `a.txt`, and the walk does not
go through the link. -/
theorem walk_in_order_links :
    let file := Node.file ⟨0o644, 0, .root⟩ []
    let a := Node.directory ⟨0o755, 0, .root⟩ [(Bytes.ofText "b", file)]
    let l := Node.symlink ⟨0o777, 0, .root⟩ (Bytes.ofText "a")
    let d := Node.directory ⟨0o755, 0, .root⟩
      [(Bytes.ofText "a.txt", file), (Bytes.ofText "l", l), (Bytes.ofText "a", a)]
    let fs : FileSystem := ⟨.directory ⟨0o755, 0, .root⟩ [(Bytes.ofText "d", d)], [], 0, .root⟩
    let root := Path.ofText "/d/"
    let log := fun (p : Path) (_ : Node) => (modifyGet fun ps => (1, ps ++ [p]) :
      EStateM WalkError (List Path) ℕ)
    fs.root.isProper = true ∧ fs.lstat root = .ok d ∧ d.isDirectory = true
      ∧ InOrder root d (d.visits root)
      ∧ fs.walk root id log [] = .ok 5 [root, .ofText "/d/a", .ofText "/d/a/b", .ofText "/d/a.txt",
        .ofText "/d/l"] := by
  intro file a l d fs root log
  have hproper : fs.root.isProper = true := by decide
  have hroot : fs.lstat root = .ok d := by rfl
  have hsorted : ¬ Bytes.ofText "a.txt" ≤ Bytes.ofText "a"
      ∧ Bytes.ofText "a.txt" ≤ Bytes.ofText "l" := by decide
  have hpaths : root.child (Bytes.ofText "a") = .ofText "/d/a"
      ∧ (Path.ofText "/d/a").child (Bytes.ofText "b") = .ofText "/d/a/b"
      ∧ root.child (Bytes.ofText "a.txt") = .ofText "/d/a.txt"
      ∧ root.child (Bytes.ofText "l") = .ofText "/d/l" := by decide
  have hvisits : d.visits root = [(root, d), (.ofText "/d/a", a), (.ofText "/d/a/b", file),
      (.ofText "/d/a.txt", file), (.ofText "/d/l", l)] := by
    simp [d, a, l, file, Node.visits, Node.entryVisits, Node.inNameOrder, List.mergeSort, hsorted,
      hpaths]
  have hlog : ∀ vs ps, Visited log vs ps vs.length (ps ++ vs.map Prod.fst) := by
    intro vs
    induction vs with
    | nil => exact fun ps => by simpa using (Visited.nil ps : Visited log [] ps 0 ps)
    | cons v vs ih =>
      intro ps
      have hfirst : log v.1 v.2 ps = .ok 1 (ps ++ [v.1]) := rfl
      simpa [Nat.add_comm] using Visited.cons hfirst (ih _)
  obtain ⟨horder, -, hok, -⟩ := walk_in_order hproper hroot rfl id log []
  refine ⟨hproper, hroot, rfl, horder, (hok _ _).mpr ⟨?_, ?_⟩⟩
  · rw [hvisits]
    intro v hv
    fin_cases hv <;> exact ⟨by rfl, by rfl⟩
  · rw [hvisits]
    exact hlog _ []

/-- A directory that may be searched and not be listed is the last that is visited. -/
example :
    let d := Node.directory ⟨0o711, 0, .root⟩ [([102], .file ⟨0o644, 0, .root⟩ [])]
    let fs : FileSystem := ⟨.directory ⟨0o755, 0, .root⟩ [([100], d)], [], 0, ⟨⟨1, 1⟩, []⟩⟩
    let root := Path.ofText "/d"
    let count := fun (_ : Path) (_ : Node) =>
      (modifyGet fun n => (1, n + 1) : EStateM WalkError ℕ ℕ)
    fs.walk root id count 0 = .error ⟨root, .permissionDenied⟩ 1 := by rfl

/-! ### Paths with many dots -/

lemma steps_dots (m : ℕ) {name : Bytes} (hname : IsName name) :
    steps (slash :: Path.joinNames (List.replicate m [dot] ++ [name]))
      = List.replicate m [dot] ++ [name] := by
  have hparts : ∀ part ∈ List.replicate m [dot] ++ [name], slash ∉ part ∧ part ≠ [] := by
    intro part hpart
    rcases List.mem_append.mp hpart with hdot | hlast
    · rw [List.eq_of_mem_replicate hdot]
      decide
    · rw [List.mem_singleton.mp hlast]
      exact ⟨hname.2.1, hname.1⟩
  rw [Path.steps_slash, Path.steps_joinNames (fun part h => (hparts part h).1) (by simp),
    List.filter_eq_self]
  exact fun part h => by simpa using (hparts part h).2

lemma bytes_dots (m : ℕ) (name : Bytes) :
    slash :: Path.joinNames (List.replicate m [dot] ++ [name])
      = (List.replicate m [slash, dot]).flatten ++ slash :: name := by
  induction m with
  | zero => simp
  | succ m ih =>
    rw [List.replicate_succ, List.cons_append, Path.joinNames_cons _ (by simp),
      List.replicate_succ, List.flatten_cons, List.append_assoc, ← ih]
    rfl

lemma length_dots (m : ℕ) (name : Bytes) :
    (slash :: Path.joinNames (List.replicate m [dot] ++ [name])).length
      = m * 2 + (name.length + 1) := by
  simp [bytes_dots]

lemma getLast?_dots (m : ℕ) {name : Bytes} (hname : IsName name) :
    (slash :: Path.joinNames (List.replicate m [dot] ++ [name])).getLast? = name.getLast? := by
  rw [bytes_dots, List.getLast?_append_of_ne_nil _ (by simp), List.getLast?_cons_of_ne_nil hname.1]

lemma notMem_dots (m : ℕ) {name : Bytes} (hname : 0 ∉ name) :
    0 ∉ slash :: Path.joinNames (List.replicate m [dot] ++ [name]) := by
  rw [bytes_dots]
  simp [hname, slash, dot]

lemma resolveFrom_dots (hplace : fs.isPlace names = true) (m : ℕ) (rest : List Bytes) :
    fs.resolveFrom .inspect links slashed names (List.replicate m [dot] ++ rest)
      = fs.resolveFrom .inspect links slashed names rest := by
  induction m with
  | zero => rfl
  | succ m ih =>
    rw [List.replicate_succ, List.cons_append, resolveFrom_cons, if_neg (by simp [hplace]),
      if_neg (by simp), if_pos rfl, ih]

/-- Not everything that can be reached is visited: a path grows by each name, and a system does
not take one of 4096 bytes. -/
theorem walk_of_long_root :
    let f := Node.file ⟨0o644, 0, .root⟩ []
    let d := Node.directory ⟨0o755, 0, .root⟩ [([102], f)]
    let fs : FileSystem := ⟨.directory ⟨0o755, 0, .root⟩ [([100], d)], [], 0, .root⟩
    let root : Path := ⟨slash :: Path.joinNames (List.replicate 2046 [dot] ++ [[100]])⟩
    let count := fun (_ : Path) (_ : Node) =>
      (modifyGet fun n => (1, n + 1) : EStateM WalkError ℕ ℕ)
    fs.root.isProper = true ∧ fs.lstat root = .ok d ∧ d.isDirectory = true
      ∧ Node.Descends root d (root.child [102]) f
      ∧ fs.walk root id count 0 = .error ⟨root.child [102], .nameTooLong⟩ 1 := by
  intro f d fs root count
  have hproper : fs.root.isProper = true := by decide
  have hlength : root.bytes.length = 4094 := (length_dots 2046 [100]).trans (by decide)
  have hlast : root.bytes.getLast? ≠ some slash := by
    rw [show root.bytes.getLast? = some 100 from getLast?_dots 2046 (by decide)]
    decide
  have htext : 0 ∉ root.bytes := notMem_dots 2046 (by decide)
  have hnonempty : root.bytes ≠ [] := List.cons_ne_nil _ _
  have htakes : Takes root := ⟨htext, hnonempty, by rw [hlength]; decide⟩
  have hslashed : endsWithSlash root.bytes = false := decide_eq_false hlast
  have hroot : fs.lstat root = .ok d := by
    refine lstat_eq_ok_iff.mpr ⟨[[100]], ?_⟩
    rw [resolve_of_takes htakes, hslashed, steps_dots 2046 (by decide), if_pos (by rfl),
      resolveFrom_dots (by rfl)]
    rfl
  have hmem : ([102], f) ∈ d.entries := List.mem_singleton_self _
  have hchild : Node.Descends root d (root.child [102]) f := Node.Descends.self.child hmem
  have hlonger : root.child [102] = ⟨root.bytes ++ slash :: [102]⟩ := by
    rw [Path.child_eq hnonempty (by decide), if_neg hlast]
  have hlost : fs.lstat (root.child [102]) = .error .nameTooLong := by
    rw [lstat_of_not_takes (.inr (by simp [hlonger, hlength, maxPath])) (by simp [hlonger])]
    simp [refusalOf, hlonger, htext, slash]
  have hvisits : d.visits root = [(root, d), (root.child [102], f)] := by
    simp only [d, f, Node.visits, Node.entryVisits, Node.inNameOrder, List.mergeSort_singleton,
      List.flatMap_singleton]
  refine ⟨hproper, hroot, rfl, hchild, ?_⟩
  -- from here on nothing depends on how the path is written
  clear_value root
  rw [walk_of_directory hroot rfl, hvisits, visitAll_of_shown ⟨hroot, rfl⟩]
  have hcount : count root d 0 = .ok 1 1 := rfl
  rw [Archive.bind_of_ok hcount, Archive.bind_of_error (visitAll_of_refused hlost [] 1)]
  rfl

end FileSystem

end DeployClient
