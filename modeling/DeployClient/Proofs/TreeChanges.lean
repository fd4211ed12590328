import DeployClient.FileSystem.Node
import Mathlib.Tactic.Lemma

/-!
Changes of one node in a tree.

A node that is changed or put in is found where it was put. The other nodes are what they were,
but for the directories above it, which stay directories with the same stamp.
-/

namespace DeployClient.Node

variable {n m k : Node} {f : Node → Node} {name part : Bytes} {path rest : List Bytes}

/-- Two directories with the same stamp. -/
structure SameDirectory (n m : Node) : Prop where
  old : n.isDirectory = true
  new : m.isDirectory = true
  stamp : m.stamp = n.stamp

/-- The same node, or two directories with the same stamp. -/
def Alike (n m : Node) : Prop := m = n ∨ SameDirectory n m

lemma exists_directory_of_rel {o o' : Option Node} (h : Option.Rel Alike o o') (hn : o = some n)
    (hdir : n.isDirectory = true) : ∃ m, o' = some m ∧ SameDirectory n m := by
  cases h with
  | none => simp at hn
  | some h =>
    obtain rfl := Option.some.inj hn
    rcases h with rfl | hm
    · exact ⟨_, rfl, hdir, hdir, rfl⟩
    · exact ⟨_, rfl, hm⟩

lemma eq_some_iff_of_rel {o o' : Option Node} (h : Option.Rel Alike o o')
    (hdir : n.isDirectory = false) : o' = some n ↔ o = some n := by
  cases h with
  | none => rfl
  | some h =>
    rcases h with rfl | h
    · rfl
    · constructor
      · rintro ⟨⟩
        simp [h.new] at hdir
      · rintro ⟨⟩
        simp [h.old] at hdir

/-- The same node, but for the entries of a directory. -/
def Refilled (n m : Node) : Prop := ∃ g, m = n.mapEntries g

/-- What a node is, apart from its time and the entries of a directory: its kind, its permissions,
its owner and its content. -/
def look : Node → Node
  | .file s data => .file { s with mtime := 0 } data
  | .directory s _ => .directory { s with mtime := 0 } []
  | .symlink s target => .symlink { s with mtime := 0 } target
  | .special s kind => .special { s with mtime := 0 } kind

lemma isDirectory_mapEntries (g : List (Bytes × Node) → List (Bytes × Node)) (n : Node) :
    (n.mapEntries g).isDirectory = n.isDirectory := by
  cases n <;> rfl

lemma stamp_mapEntries (g : List (Bytes × Node) → List (Bytes × Node)) (n : Node) :
    (n.mapEntries g).stamp = n.stamp := by
  cases n <;> rfl

lemma mapEntries_of_not_directory (g : List (Bytes × Node) → List (Bytes × Node))
    (h : n.isDirectory = false) : n.mapEntries g = n := by
  cases n with
  | directory stamp es => simp [isDirectory] at h
  | _ => rfl

lemma entries_mapEntries (g : List (Bytes × Node) → List (Bytes × Node))
    (h : n.isDirectory = true) : (n.mapEntries g).entries = g n.entries := by
  cases n with
  | directory stamp es => rfl
  | _ => simp [isDirectory] at h

lemma entry?_of_not_directory (h : n.isDirectory = false) (name : Bytes) :
    n.entry? name = none := by
  cases n with
  | directory stamp es => simp [isDirectory] at h
  | _ => rfl

lemma descend?_of_not_directory (h : n.isDirectory = false) (hrest : rest ≠ []) :
    descend? rest n = none := by
  cases rest with
  | nil => exact absurd rfl hrest
  | cons name rest => rw [descend?_cons, entry?_of_not_directory h, Option.bind_none]

lemma Refilled.refl (n : Node) : Refilled n n := ⟨id, by cases n <;> rfl⟩

lemma Refilled.alike (h : Refilled n m) : Alike n m := by
  obtain ⟨g, rfl⟩ := h
  by_cases hdir : n.isDirectory = true
  · exact .inr ⟨hdir, (isDirectory_mapEntries g n).trans hdir, stamp_mapEntries g n⟩
  · exact .inl (mapEntries_of_not_directory g (by simpa using hdir))

lemma Refilled.look_eq (h : Refilled n m) : m.look = n.look := by
  obtain ⟨g, rfl⟩ := h
  cases n <;> rfl

section

variable {o o' : Option Node}

lemma rel_refilled_refl (o : Option Node) : Option.Rel Refilled o o := by
  cases o with
  | none => exact .none
  | some n => exact .some (.refl n)

lemma rel_alike (h : Option.Rel Refilled o o') : Option.Rel Alike o o' := by
  cases h with
  | none => exact .none
  | some h => exact .some h.alike

lemma map_look_of_rel (h : Option.Rel Refilled o o') : o'.map look = o.map look := by
  cases h with
  | none => rfl
  | some h => rw [Option.map_some, Option.map_some, h.look_eq]

end

/-! ### Changes along a path -/

/-- What a change below one of its entries makes of a directory. -/
lemma entry?_modify (f : Node → Node) (name : Bytes) (path : List Bytes) (n : Node) (part : Bytes) :
    entry? part (modify f (name :: path) n)
      = if part = name then (n.entry? part).map (modify f path) else n.entry? part := by
  by_cases hdir : n.isDirectory = true
  · have hkeys : ((fun e : Bytes × Node => decide (e.1 = part))
        ∘ fun e => if e.1 = name then (name, modify f path e.2) else e)
        = fun e => decide (e.1 = part) := by
      funext e
      by_cases he : e.1 = name <;> simp [he]
    rw [modify, entry?, entries_mapEntries _ hdir, entry?, List.find?_map, hkeys, Option.map_map]
    rcases hfind : n.entries.find? (fun e => decide (e.1 = part)) with _ | e
    · simp [hfind]
    · have hkey : e.1 = part := by simpa using List.find?_some hfind
      rw [hfind]
      by_cases he : part = name <;> simp [hkey, he]
  · have hdir : n.isDirectory = false := by simpa using hdir
    rw [modify, mapEntries_of_not_directory _ hdir, entry?_of_not_directory hdir]
    simp

/-- What is found from the changed node on. -/
lemma descend?_modify_below (f : Node → Node) (path rest : List Bytes) (n : Node) :
    descend? (path ++ rest) (modify f path n)
      = (descend? path n).bind fun m => descend? rest (f m) := by
  induction path generalizing n with
  | nil => rfl
  | cons name path ih =>
    rw [List.cons_append, descend?_cons, descend?_cons, entry?_modify, if_pos rfl]
    cases n.entry? name with
    | none => rfl
    | some m => exact ih m

/-- What is found elsewhere. -/
lemma descend?_modify_beside (f : Node → Node) (h : ¬ path <+: rest) (n : Node) :
    Option.Rel Refilled (descend? rest n) (descend? rest (modify f path n)) := by
  induction path generalizing n rest with
  | nil => exact absurd (List.nil_prefix) h
  | cons name path ih =>
    cases rest with
    | nil => exact .some ⟨_, rfl⟩
    | cons part rest =>
      rw [descend?_cons, descend?_cons, entry?_modify]
      split
      · next heq =>
        subst heq
        cases n.entry? part with
        | none => exact .none
        | some m => exact ih (fun hprefix => h (List.cons_prefix_cons.mpr ⟨rfl, hprefix⟩)) m
      · exact rel_refilled_refl _

/-- An entry under a new name. -/
lemma entry?_putEntry (node : Node) (h : n.isDirectory = true) (hfree : n.entry? name = none)
    (part : Bytes) : entry? part (n.mapEntries (putEntry name node))
      = if part = name then some node else n.entry? part := by
  have hnone : n.entries.find? (fun e => e.1 = name) = none := by
    unfold entry? at hfree
    simpa using hfree
  have hany : (n.entries.any fun e => e.1 = name) = false := by
    simpa [List.any_eq_false] using List.find?_eq_none.mp hnone
  unfold entry?
  rw [entries_mapEntries _ h, putEntry, hany, if_neg (by simp), List.find?_append]
  split
  · next heq =>
    subst heq
    simp [hnone]
  · next hne =>
    have hne : name ≠ part := Ne.symm hne
    simp [hne]

/-- What is found under a new name. -/
lemma descend?_put_below (node : Node) (hd : descend? path n = some m) (hdir : m.isDirectory = true)
    (hfree : m.entry? name = none) :
    descend? (path ++ name :: rest) (n.put path name node) = descend? rest node := by
  rw [put, descend?_modify_below, hd, Option.bind_some, descend?_cons,
    entry?_putEntry node hdir hfree, if_pos rfl, Option.bind_some]

/-- What is found elsewhere. -/
lemma descend?_put_beside (node : Node) (hd : descend? path n = some m)
    (hdir : m.isDirectory = true) (hfree : m.entry? name = none)
    (h : ¬ path ++ [name] <+: rest) :
    Option.Rel Refilled (descend? rest n) (descend? rest (n.put path name node)) := by
  by_cases hprefix : path <+: rest
  · obtain ⟨below, rfl⟩ := hprefix
    rw [put, descend?_modify_below, descend?_append, hd, Option.bind_some, Option.bind_some]
    cases below with
    | nil => exact .some ⟨_, rfl⟩
    | cons part below =>
      have hpart : part ≠ name := by
        rintro rfl
        exact h ⟨below, by simp⟩
      rw [descend?_cons, descend?_cons, entry?_putEntry node hdir hfree, if_neg hpart]
      exact rel_refilled_refl _
  · exact descend?_modify_beside _ hprefix n

end DeployClient.Node
