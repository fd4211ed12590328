import DeployClient.Proofs.Exactness

/-!
Entries without directories, under the last part of their names.
-/

namespace DeployClient.Archive

open Tar (Member)

/-! ### Flat lists of entries -/

def flatMember (m : Member) : Member := { m with name := Path.lastPart m.name }

/-- The first member of each name. -/
def firsts : List Member → List Member
  | [] => []
  | m :: ms => m :: (firsts ms).filter fun m' => m'.name ≠ m.name

def flatten (ms : List Member) : List Member :=
  firsts ((ms.filter fun m => m.kind ≠ .directory).map flatMember)

lemma names_firsts {ms : List Member} {name : Bytes} :
    name ∈ (firsts ms).map Member.name ↔ name ∈ ms.map Member.name := by
  induction ms with
  | nil => simp [firsts]
  | cons m ms ih =>
    by_cases hname : name = m.name
    · simp [firsts, hname]
    · simp only [firsts, List.map_cons, List.mem_cons, hname, false_or, ← ih, List.mem_map,
        List.mem_filter, decide_eq_true_eq]
      constructor
      · rintro ⟨m', ⟨hm', -⟩, rfl⟩
        exact ⟨m', hm', rfl⟩
      · rintro ⟨m', hm', rfl⟩
        exact ⟨m', ⟨hm', hname⟩, rfl⟩

lemma firsts_append_singleton (ms : List Member) (m : Member) :
    firsts (ms ++ [m])
      = if m.name ∈ ms.map Member.name then firsts ms else firsts ms ++ [m] := by
  induction ms with
  | nil => simp [firsts]
  | cons x ms ih =>
    rw [List.cons_append, firsts, firsts, ih, List.map_cons]
    by_cases hin : m.name ∈ ms.map Member.name
    · rw [if_pos hin, if_pos (List.mem_cons_of_mem _ hin)]
    · rw [if_neg hin, List.filter_append]
      by_cases hx : m.name = x.name
      · simp [hx]
      · rw [if_neg (by simp only [List.mem_cons, hx, hin, or_self, not_false_eq_true])]
        simp [hx]

lemma names_flatten {ms : List Member} {name : Bytes} :
    name ∈ (flatten ms).map Member.name
      ↔ ∃ m ∈ ms, m.kind ≠ .directory ∧ (flatMember m).name = name := by
  rw [flatten, names_firsts]
  simp only [List.map_map, List.mem_map, List.mem_filter, decide_eq_true_eq, and_assoc]
  rfl

lemma flatten_append_directories {ms ds : List Member} (h : ∀ m ∈ ds, m.kind = .directory) :
    flatten (ms ++ ds) = flatten ms := by
  have hnone : ds.filter (fun m => m.kind ≠ .directory) = [] := by
    rw [List.filter_eq_nil_iff]
    intro m hm
    simp [h m hm]
  rw [flatten, List.filter_append, hnone, List.append_nil, flatten]

lemma flatten_append_held {ms : List Member} {m : Member} (hkind : m.kind ≠ .directory)
    (h : (flatMember m).name ∈ (flatten ms).map Member.name) :
    flatten (ms ++ [m]) = flatten ms := by
  have hkeep : [m].filter (fun m => m.kind ≠ .directory) = [m] := by simp [hkind]
  rw [flatten, names_firsts] at h
  rw [flatten, List.filter_append, hkeep, List.map_append, List.map_singleton,
    firsts_append_singleton, if_pos h, flatten]

lemma flatten_append_new {ms : List Member} {m : Member} (hkind : m.kind ≠ .directory)
    (h : (flatMember m).name ∉ (flatten ms).map Member.name) :
    flatten (ms ++ [m]) = flatten ms ++ [flatMember m] := by
  have hkeep : [m].filter (fun m => m.kind ≠ .directory) = [m] := by simp [hkind]
  rw [flatten, names_firsts] at h
  rw [flatten, List.filter_append, hkeep, List.map_append, List.map_singleton,
    firsts_append_singleton, if_neg h, flatten]

/-! ### Nodes that both archives take -/

section

variable {fs : FileSystem} {patterns : Ignore.Patterns} {base p q : Path} {n k : Node} {m : Member}

lemma memberAs_flat {name : Bytes} (h : memberAs name n = some m) :
    memberAs (Path.lastPart name) n = some (flatMember m) := by
  cases n with
  | special stamp kind => simp [memberAs] at h
  | _ =>
    obtain rfl := Option.some.inj h
    rfl

/-- Only the base goes by the base's name, also where names are cut. -/
lemma Sighted.lastPart_ne (hp : Sighted fs base p n) {path : Bytes}
    (h : Path.nameBelow base p = .named path) (hne : path ≠ baseName) :
    Path.lastPart path ≠ baseName := by
  obtain ⟨bs, rest, hbelow, rfl⟩ := Path.Below.of_named hp.normalBase hp.normal h
  have hrest : ∀ m ∈ rest, Path.IsName m := fun m hm =>
    hbelow.isName m (List.mem_append_right _ hm)
  rw [Ne, Path.nameOf_eq_baseName_iff hrest] at hne
  rwa [Ne, Path.lastPart_nameOf_eq_baseName_iff hrest]

lemma Wanted.unique {m' : Member} (h : Wanted patterns base p n m)
    (h' : Wanted patterns base p n m') : m' = m := by
  have hname : m'.name = m.name := Naming.named.inj (h'.named.symm.trans h.named)
  have hmember := h'.member
  rw [hname, h.member] at hmember
  exact (Option.some.inj hmember).symm

lemma Wanted.passes_flat (h : Wanted patterns base p n m) (hkind : m.kind ≠ .directory) :
    Passes patterns true base p n m.name m.kind :=
  ⟨h.named, h.passes.ofNode, fun hd => hkind hd.1, h.passes.kept⟩

/-- What the archive of files takes, the other one would take too. -/
lemma EntryOf.exists_wanted_flat {e : Entry} (h : EntryOf patterns true fs base n e) :
    ∃ m, Wanted patterns base e.source n m ∧ m.kind ≠ .directory
      ∧ e.name = (flatMember m).name := by
  obtain ⟨path, hp, hname⟩ := h.passes
  obtain ⟨m, hm⟩ := exists_memberAs path hp.ofNode
  obtain rfl := name_of_memberAs hm
  have hkind : e.kind = m.kind := Option.some.inj (hp.ofNode.symm.trans (kind_of_memberAs hm))
  have hne : m.name ≠ baseName := by
    intro he
    refine h.name ?_
    rw [hname, he]
    decide
  refine ⟨m, ⟨hp.named, hne, ?_, hm⟩, fun hd => hp.listed ⟨hkind.trans hd, rfl⟩, hname⟩
  rw [← decide_eq_isDirectory hp.ofNode]
  exact hp.kept hne

lemma Record.Made.member_flat {r : Record} (h : r.Made patterns true fs base)
    (hl : fs.lstat r.entry.source = .ok r.node)
    (hm : Wanted patterns base r.entry.source r.node m) :
    r.member = flatMember m := by
  obtain ⟨m', hm', -, hname⟩ := h.entryOf.exists_wanted_flat
  have hsame : m'.name = m.name := Naming.named.inj (hm'.named.symm.trans hm.named)
  have hmember := h.memberAs hl
  rw [hname, show (flatMember m').name = Path.lastPart m.name from congrArg Path.lastPart hsame,
    memberAs_flat hm.member] at hmember
  exact (Option.some.inj hmember).symm

end

end DeployClient.Archive
