import DeployClient.FileSystem.Walk
import DeployClient.Proofs.PathNames

/-!
Trees of nodes, and which of their nodes a walk shows.

A tree is proper if the entries of each directory have names of their own. A walk shows a
node and all nodes that can be reached by going from a directory to one of its entries, so a
link is shown and what it leads to is not.
-/

namespace DeployClient

open DeployClient.Path (IsName)

namespace Node

variable {n d k : Node} {name : Bytes} {root p q : Path} {es : List (Bytes × Node)}

/-! ### Proper trees -/

mutual

def isProper : Node → Bool
  | .directory _ es => (es.map Prod.fst).Nodup && areProper es
  | _ => true

/-- The entries bear names, and what they lead to is proper. -/
def areProper : List (Bytes × Node) → Bool
  | [] => true
  | (name, n) :: es => IsName name && isProper n && areProper es

end

lemma of_areProper (h : areProper es = true) (hmem : (name, k) ∈ es) :
    IsName name ∧ k.isProper = true := by
  induction es with
  | nil => simp at hmem
  | cons e es ih =>
    obtain ⟨name', k'⟩ := e
    simp only [areProper, Bool.and_eq_true, decide_eq_true_eq] at h
    rcases List.mem_cons.mp hmem with he | hmem
    · obtain ⟨rfl, rfl⟩ := Prod.mk.inj he
      exact h.1
    · exact ih h.2 hmem

lemma isProper_entries (h : d.isProper = true) :
    (d.entries.map Prod.fst).Nodup ∧ areProper d.entries = true := by
  cases d with
  | directory stamp es => simpa [isProper, entries] using h
  | _ => simp [entries, areProper]

lemma of_mem_entries (h : d.isProper = true) (hmem : (name, k) ∈ d.entries) :
    IsName name ∧ k.isProper = true :=
  of_areProper (isProper_entries h).2 hmem

lemma mem_of_entry_eq (h : d.entry? name = some k) : (name, k) ∈ d.entries := by
  obtain ⟨e, he, rfl⟩ := Option.map_eq_some_iff.mp h
  have hname : e.1 = name := by simpa using List.find?_some he
  rw [← hname]
  exact List.mem_of_find?_eq_some he

/-- In a proper tree an entry is found by its name. -/
lemma entry?_of_mem (h : d.isProper = true) (hmem : (name, k) ∈ d.entries) :
    d.entry? name = some k := by
  have hnodup := (isProper_entries h).1
  unfold entry?
  revert hmem hnodup
  generalize d.entries = es
  intro hmem hnodup
  induction es with
  | nil => simp at hmem
  | cons e es ih =>
    rw [List.map_cons, List.nodup_cons] at hnodup
    rcases List.mem_cons.mp hmem with rfl | hmem
    · simp
    · have hne : e.1 ≠ name := by
        rintro rfl
        exact hnodup.1 (List.mem_map.mpr ⟨_, hmem, rfl⟩)
      rw [List.find?_cons_of_neg (by simpa using hne)]
      exact ih hmem hnodup.2

/-- What holds at the top and is passed on to entries holds of all nodes of a tree. -/
lemma descend?_induction {P : Node → Prop} {names : List Bytes} (hn : P n)
    (hentry : ∀ d name k, P d → (name, k) ∈ d.entries → P k) (hd : n.descend? names = some d) :
    P d := by
  induction names generalizing n with
  | nil => exact Option.some.inj hd ▸ hn
  | cons name names ih =>
    rw [descend?_cons] at hd
    obtain ⟨m, hm, hd⟩ := Option.bind_eq_some_iff.mp hd
    exact ih (hentry n name m hn (mem_of_entry_eq hm)) hd

lemma isProper_descend? {names : List Bytes} (h : n.isProper = true)
    (hd : n.descend? names = some d) : d.isProper = true :=
  descend?_induction (P := fun k => k.isProper = true) h
    (fun _ _ _ hk hmem => (of_mem_entries hk hmem).2) hd

/-! ### What a walk shows -/

/-- Going down from a node at a path: the paths and nodes that are reached. -/
inductive Descends (root : Path) (n : Node) : Path → Node → Prop
  | self : Descends root n root n
  | child {p : Path} {d : Node} {name : Bytes} {k : Node} (h : Descends root n p d)
      (hmem : (name, k) ∈ d.entries) : Descends root n (p.child name) k

lemma Descends.trans (h : Descends root n p d) (h' : Descends p d q k) : Descends root n q k := by
  induction h' with
  | self => exact h
  | child _ hmem ih => exact ih.child hmem

/-- There is nothing below a node that is no directory. -/
lemma Descends.eq_of_not_directory (hn : n.isDirectory = false) (h : Descends root n p k) :
    p = root ∧ k = n := by
  have hnil : n.entries = [] := by
    cases n with
    | directory stamp es => simp [isDirectory] at hn
    | _ => rfl
  induction h with
  | self => exact ⟨rfl, rfl⟩
  | child _ hmem ih => simp [ih.2, hnil] at hmem

lemma mem_inNameOrder {parts : List (Bytes × List Visit)} {v : Visit} :
    v ∈ inNameOrder parts ↔ ∃ part ∈ parts, v ∈ part.2 := by
  rw [inNameOrder, List.mem_flatMap]
  simp only [List.mem_mergeSort]

lemma mem_entryVisits {part : Bytes × List Visit} :
    part ∈ entryVisits p es ↔ ∃ e ∈ es, part = (e.1, visits (p.child e.1) e.2) := by
  induction es with
  | nil => simp [entryVisits]
  | cons e es ih => simp [entryVisits, ih]

/-- A node is shown first, and then what its entries show. -/
lemma mem_visits : (q, k) ∈ visits p n ↔
    (q = p ∧ k = n) ∨ ∃ e ∈ n.entries, (q, k) ∈ visits (p.child e.1) e.2 := by
  cases n with
  | directory stamp es =>
    rw [visits, List.mem_cons, mem_inNameOrder]
    simp only [Prod.mk.injEq, mem_entryVisits, entries]
    constructor
    · rintro (h | ⟨_, ⟨e, he, rfl⟩, h⟩)
      · exact .inl h
      · exact .inr ⟨e, he, h⟩
    · rintro (h | ⟨e, he, h⟩)
      · exact .inl h
      · exact .inr ⟨_, ⟨e, he, rfl⟩, h⟩
  | _ => simp [visits, entries]

lemma sizeOf_lt_of_mem_entries {e : Bytes × Node} (h : e ∈ n.entries) : sizeOf e.2 < sizeOf n := by
  cases n with
  | directory stamp es =>
    have hmem := List.sizeOf_lt_of_mem (show e ∈ es from h)
    obtain ⟨name, k⟩ := e
    simp only [Prod.mk.sizeOf_spec, directory.sizeOf_spec] at hmem ⊢
    omega
  | _ => simp [entries] at h

/-- **A walk shows what can be reached**, and nothing else. -/
theorem mem_visits_iff_descends : (q, k) ∈ visits p n ↔ Descends p n q k := by
  constructor
  · intro h
    induction hsize : sizeOf n using Nat.strongRecOn generalizing n p with
    | _ size ih =>
      rcases mem_visits.mp h with ⟨rfl, rfl⟩ | ⟨e, he, h⟩
      · exact .self
      · have hlt := sizeOf_lt_of_mem_entries he
        exact Descends.trans (.child .self he) (ih _ (hsize ▸ hlt) h rfl)
  · intro h
    induction h with
    | self => exact mem_visits.mpr (.inl ⟨rfl, rfl⟩)
    | @child q d name k _ hmem ih =>
      clear * - ih hmem
      induction hsize : sizeOf n using Nat.strongRecOn generalizing n p with
      | _ size ihs =>
        rcases mem_visits.mp ih with ⟨rfl, rfl⟩ | ⟨e, he, ih⟩
        · exact mem_visits.mpr (.inr ⟨_, hmem, mem_visits.mpr (.inl ⟨rfl, rfl⟩)⟩)
        · have hlt := sizeOf_lt_of_mem_entries he
          exact mem_visits.mpr (.inr ⟨e, he, ihs _ (hsize ▸ hlt) ih rfl⟩)

end Node

end DeployClient
