import DeployClient.Proofs.Resolution
import DeployClient.Proofs.Trees

/-!
What a path leads to, compared with what its parents and its children lead to.
-/

namespace DeployClient.FileSystem

open DeployClient.Path (IsName ofNames joinNames)
open Bytes (slash dot)

variable {fs : FileSystem} {intent : Intent} {names front rest : List Bytes} {place : Place}

/-! ### Paths in normal form -/

lemma steps_ofNames (h : ∀ n ∈ names, IsName n) : steps (ofNames true names).bytes = names := by
  have hsplit : (ofNames true names).bytes.splitOn slash
      = [] :: (joinNames names).splitOn slash := by
    simp [ofNames, List.splitOn_cons_eq_if_modifyHead]
  rw [steps, hsplit]
  by_cases hne : names = []
  · subst hne
    rfl
  · rw [Path.splitOn_joinNames (fun n hn => (h n hn).2.1) hne, List.filter_cons_of_neg (by simp),
      List.filter_eq_self]
    exact fun n hn => by simpa using (h n hn).1

lemma endsWithSlash_ofNames (h : ∀ n ∈ names, IsName n) (hne : names ≠ []) :
    endsWithSlash (ofNames true names).bytes = false :=
  decide_eq_false (Path.getLast?_ofNames h hne)

/-- A path that a system takes holds no NUL and has a bounded length. -/
structure Takes (p : Path) : Prop where
  text : 0 ∉ p.bytes
  nonempty : p.bytes ≠ []
  length : p.bytes.length < maxPath

lemma resolve_of_takes {p : Path} (h : Takes p) : fs.resolve intent p
    = fs.resolveFrom intent maxLinks (endsWithSlash p.bytes)
        (if p.isAbsolute then [] else fs.cwd) (steps p.bytes) := by
  rw [resolve, if_neg (by simpa using h.text), if_neg h.nonempty, if_neg (Nat.not_le.mpr h.length)]

lemma takes_of_resolve {p : Path} (h : fs.resolve intent p = .ok place) : Takes p := by
  unfold resolve at h
  split at h
  · simp at h
  · next h0 =>
    split at h
    · simp at h
    · next hnil =>
      split at h
      · simp at h
      · next hlength => exact ⟨by simpa using h0, hnil, Nat.lt_of_not_le hlength⟩

lemma finds_of_resolve {p : Path} (h : fs.resolve intent p = .ok place) : fs.Finds place := by
  rw [resolve_of_takes (takes_of_resolve h)] at h
  exact finds_of_ok h

lemma lstat_eq_ok_iff {p : Path} {n : Node} :
    fs.lstat p = .ok n ↔ ∃ ns, fs.resolve .inspect p = .ok (.taken ns n) := by
  unfold lstat FileSystem.node
  split
  · next he => simp [he]
  · next ns m hm => simp [hm]
  · next hm => simp [hm]

lemma takes_of_lstat {p : Path} {n : Node} (h : fs.lstat p = .ok n) : Takes p := by
  obtain ⟨ns, h⟩ := lstat_eq_ok_iff.mp h
  exact takes_of_resolve h

/-- **What is no link is found by following links, too.** -/
theorem stat_of_lstat {p : Path} {n : Node} (h : fs.lstat p = .ok n) (hn : n.isSymlink = false) :
    fs.stat p = .ok n := by
  have htakes := takes_of_lstat h
  obtain ⟨ns, h⟩ := lstat_eq_ok_iff.mp h
  rw [resolve_of_takes htakes] at h
  rw [stat, FileSystem.node, resolve_of_takes htakes, resolveFrom_follow hn h]

/-- A file is read, unless its permissions refuse it. -/
lemma read_of_lstat {p : Path} {stamp : Stamp} {data : Bytes}
    (h : fs.lstat p = .ok (.file stamp data)) : fs.read p
      = if stamp.allows fs.caller .read then .ok data else .error .permissionDenied := by
  have hallows : fs.allows .read (.file stamp data) = stamp.allows fs.caller .read := rfl
  rw [read, openNode, stat_of_lstat h rfl]
  cases hread : stamp.allows fs.caller .read <;> simp [hallows, hread, Node.contents]

lemma eq_of_read {p : Path} {stamp : Stamp} {data data' : Bytes}
    (h : fs.lstat p = .ok (.file stamp data)) (hread : fs.read p = .ok data') : data' = data := by
  rw [read_of_lstat h] at hread
  split at hread
  · exact (Except.ok.inj hread).symm
  · simp at hread

lemma isProper_of_lstat {p : Path} {n : Node} (hfs : fs.root.isProper = true)
    (h : fs.lstat p = .ok n) : n.isProper = true := by
  have htakes := takes_of_lstat h
  obtain ⟨ns, h⟩ := lstat_eq_ok_iff.mp h
  rw [resolve_of_takes htakes] at h
  rw [standing_of_taken h, standing]
  cases hnode : fs.nodeAt? ns with
  | none => rfl
  | some d => exact Node.isProper_descend? hfs hnode

lemma takes_front (h : Takes (ofNames true (front ++ rest))) : Takes (ofNames true front) := by
  have hle := Path.length_joinNames_le (List.sublist_append_left front rest)
  have hlength := h.length
  simp only [ofNames, if_true, List.singleton_append, List.length_cons] at hlength
  refine ⟨fun h0 => ?_, by simp [ofNames], ?_⟩
  · rcases List.mem_cons.mp h0 with h0 | h0
    · exact absurd h0 (by decide)
    · rcases Path.mem_joinNames h0 with h0 | ⟨name, hname, h0⟩
      · exact absurd h0 (by decide)
      · refine h.text (List.mem_cons_of_mem _ ?_)
        exact Path.mem_joinNames_of_mem (List.mem_append_left _ hname) h0
  · simp only [ofNames, if_true, List.singleton_append, List.length_cons]
    omega

/-- The way to a path in normal form begins with the ways to its parents. -/
lemma lstat_append {n : Node} (h : ∀ m ∈ front ++ rest, IsName m) (hrest : rest ≠ [])
    (hn : fs.lstat (ofNames true (front ++ rest)) = .ok n) :
    ∃ ns d, fs.lstat (ofNames true front) = .ok d ∧ d = fs.standing ns
      ∧ (d.isSymlink = false →
        ∃ l ms, fs.resolveFrom .inspect l false ns rest = .ok (.taken ms n)) := by
  have htakes := takes_of_lstat hn
  obtain ⟨ms, hn⟩ := lstat_eq_ok_iff.mp hn
  have hfront : ∀ m ∈ front, IsName m := fun m hm => h m (List.mem_append_left _ hm)
  rw [resolve_of_takes htakes, if_pos (Path.isAbsolute_ofNames _), steps_ofNames h,
    endsWithSlash_ofNames h (by simp [hrest])] at hn
  obtain ⟨ns, d, hd, hgo⟩ := resolveFrom_append hrest hn
  refine ⟨ns, d, lstat_eq_ok_iff.mpr ⟨ns, ?_⟩, standing_of_taken hd, fun hs => ?_⟩
  · rw [resolve_of_takes (takes_front htakes), if_pos (Path.isAbsolute_ofNames _),
      steps_ofNames hfront]
    by_cases hne : front = []
    · subst hne
      rw [resolveFrom_nil] at hd ⊢
      exact hd
    · rw [endsWithSlash_ofNames hfront hne]
      exact hd
  · obtain ⟨l, hl⟩ := hgo hs
    exact ⟨l, ms, hl⟩

/-- **Where a path is found, its parents are found.** -/
theorem lstat_parent {p q : Path} {n : Node} (hp : p.IsNormal) (hq : q ∈ p.parents)
    (h : fs.lstat p = .ok n) : ∃ d, fs.lstat q = .ok d := by
  obtain ⟨names, rfl, hnames⟩ := hp
  obtain ⟨front, rest, rfl, hrest, rfl⟩ := Path.mem_parentsUpTo hnames hq
  obtain ⟨-, d, hd, -⟩ := lstat_append hnames hrest h
  exact ⟨d, hd⟩

lemma lstat_of_child {p : Path} {k : Node} {name : Bytes} (hp : p.IsNormal) (hname : IsName name)
    (h : fs.lstat (p.child name) = .ok k) : ∃ d, fs.lstat p = .ok d := by
  obtain ⟨names, rfl, hnames⟩ := hp
  rw [Path.child_ofNames hnames hname] at h
  obtain ⟨-, d, hd, -⟩ := lstat_append (Path.forall_isName_append hnames hname) (by simp) h
  exact ⟨d, hd⟩

/-- A last step by a name leads to the node that stands there. -/
lemma nodeAt?_of_step {l : ℕ} {ns ms : List Bytes} {name : Bytes} {k : Node} (hname : IsName name)
    (h : fs.resolveFrom .inspect l false ns [name] = .ok (.taken ms k)) :
    fs.nodeAt? (ns ++ [name]) = some k := by
  cases (stride_of_ok h).2 with
  | here hpart h => exact absurd hpart hname.2.2.1
  | up hpart h => exact absurd hpart hname.2.2.2
  | free plain hnode hrest h => simp at h
  | link_end plain hnode hrest hslashed h =>
    obtain ⟨-, rfl⟩ := Place.taken.inj h
    exact hnode
  | link plain hnode hend hlinks h => exact absurd ⟨rfl, rfl⟩ hend
  | node plain hnode hlink hend h =>
    rw [resolveFrom_nil, standing_eq hnode] at h
    obtain ⟨-, rfl⟩ := Place.taken.inj (Except.ok.inj h)
    exact hnode

/-- A child of what is no link is looked up in the node of its parent. -/
lemma nodeAt?_of_lstat_child {p : Path} {d k : Node} {name : Bytes} (hp : p.IsNormal)
    (hname : IsName name) (hd : fs.lstat p = .ok d) (hlink : d.isSymlink = false)
    (h : fs.lstat (p.child name) = .ok k) :
    ∃ ns, d = fs.standing ns ∧ fs.nodeAt? (ns ++ [name]) = some k := by
  obtain ⟨names, rfl, hnames⟩ := hp
  rw [Path.child_ofNames hnames hname] at h
  obtain ⟨ns, d', hd', hnode, hgo⟩ :=
    lstat_append (Path.forall_isName_append hnames hname) (by simp) h
  obtain rfl : d = d' := Except.ok.inj (hd.symm.trans hd')
  obtain ⟨l, ms, hl⟩ := hgo hlink
  exact ⟨ns, hnode, nodeAt?_of_step hname hl⟩

lemma nodeAt?_concat (ns : List Bytes) (name : Bytes) :
    fs.nodeAt? (ns ++ [name]) = (fs.nodeAt? ns).bind (Node.entry? name) := by
  have hstep : Node.descend? [name] = Node.entry? name := by
    funext n
    rw [Node.descend?_cons]
    exact Option.bind_fun_some _
  rw [nodeAt?, Node.descend?_append, hstep]
  rfl

/-- **What a child of a directory leads to is the entry of its name.** -/
theorem lstat_child {p : Path} {d k k' : Node} {name : Bytes} (hfs : fs.root.isProper = true)
    (hp : p.IsNormal) (hd : fs.lstat p = .ok d) (hmem : (name, k) ∈ d.entries)
    (h : fs.lstat (p.child name) = .ok k') : k' = k := by
  have hproper := isProper_of_lstat hfs hd
  have hlink : d.isSymlink = false := by
    cases d with
    | symlink stamp target => simp [Node.entries] at hmem
    | _ => rfl
  obtain ⟨ns, hnode, hchild⟩ :=
    nodeAt?_of_lstat_child hp (Node.of_mem_entries hproper hmem).1 hd hlink h
  have hat : fs.nodeAt? ns = some d := by
    cases hns : fs.nodeAt? ns with
    | none =>
      rw [hnode, standing, hns] at hmem
      simp [Node.entries] at hmem
    | some m => rw [hnode, standing_eq hns]
  rw [nodeAt?_concat, hat, Option.bind_some, Node.entry?_of_mem hproper hmem] at hchild
  exact (Option.some.inj hchild).symm

/-- **What is found below a directory is one of its entries.** -/
theorem mem_entries_of_lstat {p : Path} {d k : Node} {name : Bytes} (hp : p.IsNormal)
    (hname : IsName name) (hd : fs.lstat p = .ok d) (hdir : d.isDirectory = true)
    (h : fs.lstat (p.child name) = .ok k) : (name, k) ∈ d.entries := by
  have hlink : d.isSymlink = false := by
    cases d with
    | directory stamp entries => rfl
    | _ => simp [Node.isDirectory] at hdir
  obtain ⟨ns, hnode, hchild⟩ := nodeAt?_of_lstat_child hp hname hd hlink h
  rw [nodeAt?_concat] at hchild
  obtain ⟨m, hm, hentry⟩ := Option.bind_eq_some_iff.mp hchild
  rw [hnode, standing_eq hm]
  exact Node.mem_of_entry_eq hentry

end DeployClient.FileSystem
