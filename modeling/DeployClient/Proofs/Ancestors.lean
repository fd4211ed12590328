import DeployClient.Proofs.Containment
import DeployClient.Proofs.Exactness
import Mathlib.Data.List.Infix
import Mathlib.Data.List.Nodup

/-!
The directories between a base and a path below it.

Going up from the path stops at the base itself, so what is passed on the way is named by the
beginnings of the names below the base, the shortest last.
-/

namespace DeployClient

namespace Path

variable {bs rest front : List Bytes} {name : Bytes} {base p : Path}

/-! ### Beginnings -/

/-- The beginnings of a list of names, without the empty one and the whole list. -/
def fronts (rest : List Bytes) : List (List Bytes) := rest.inits.tail.dropLast

lemma tail_inits_concat (rest : List Bytes) (name : Bytes) :
    (rest ++ [name]).inits.tail = rest.inits.tail ++ [rest ++ [name]] := by
  have hne : rest.inits ≠ [] := List.ne_nil_of_mem ((List.mem_inits [] rest).mpr List.nil_prefix)
  rw [List.inits_append, List.tail_append_of_ne_nil hne]
  rfl

lemma tail_inits_eq (h : rest ≠ []) : rest.inits.tail = fronts rest ++ [rest] := by
  obtain ⟨init, last, rfl⟩ : ∃ init last, rest = init ++ [last] :=
    ⟨rest.dropLast, rest.getLast h, (List.dropLast_append_getLast h).symm⟩
  rw [fronts, tail_inits_concat, List.dropLast_concat]

lemma fronts_concat (h : rest ≠ []) : fronts (rest ++ [name]) = fronts rest ++ [rest] := by
  rw [← tail_inits_eq h, fronts, tail_inits_concat, List.dropLast_concat]

lemma exists_of_mem_fronts (h : front ∈ fronts rest) :
    front ≠ [] ∧ ∃ later, later ≠ [] ∧ rest = front ++ later := by
  induction rest using List.reverseRecOn with
  | nil => simp [fronts] at h
  | append_singleton rest name ih =>
    by_cases hrest : rest = []
    · simp [hrest, fronts] at h
    · rw [fronts_concat hrest] at h
      rcases List.mem_append.mp h with h | h
      · obtain ⟨hne, later, -, hlater⟩ := ih h
        exact ⟨hne, later ++ [name], by simp, by rw [hlater, List.append_assoc]⟩
      · obtain rfl := List.mem_singleton.mp h
        exact ⟨hrest, [name], by simp, rfl⟩

lemma notMem_fronts (rest : List Bytes) : rest ∉ fronts rest := by
  intro h
  obtain ⟨-, later, hlater, hrest⟩ := exists_of_mem_fronts h
  exact hlater (List.self_eq_append_right.mp hrest)

lemma nodup_fronts (rest : List Bytes) : (fronts rest).Nodup := by
  induction rest using List.reverseRecOn with
  | nil => simp [fronts]
  | append_singleton rest name ih =>
    by_cases hrest : rest = []
    · simp [hrest, fronts]
    · rw [fronts_concat hrest, ← List.concat_eq_append]
      exact List.Nodup.concat (notMem_fronts rest) ih

/-- A path on the way lies below the base as well. -/
lemma Below.of_mem_fronts (h : Below base p bs rest) (hfront : front ∈ fronts rest) :
    Below base (ofNames true (bs ++ front)) bs front := by
  refine ⟨h.base, rfl, fun n hn => h.isName n ?_⟩
  obtain ⟨-, later, -, rfl⟩ := exists_of_mem_fronts hfront
  rw [← List.append_assoc]
  exact List.mem_append_left _ hn

/-! ### Going up to a base -/

lemma sameAs_ofNames_iff {names others : List Bytes} (h : ∀ n ∈ names, IsName n)
    (h' : ∀ n ∈ others, IsName n) :
    (ofNames true names).sameAs (ofNames true others) = true ↔ names = others := by
  rw [sameAs, decide_eq_true_eq, components_ofNames h, components_ofNames h', List.cons_inj_right]
  exact ⟨map_normal_injective, fun e => e ▸ rfl⟩

/-- **What lies between a base and a path below it**, from the outside in. -/
theorem parentsBelow_of_below (h : Below base p bs rest) :
    Archive.parentsBelow p base = (fronts rest).map fun front => ofNames true (bs ++ front) := by
  obtain ⟨rfl, rfl, hall⟩ := h
  have hbs : ∀ n ∈ bs, IsName n := fun n hn => hall n (List.mem_append_left _ hn)
  rw [Archive.parentsBelow, List.reverse_eq_iff]
  induction rest using List.reverseRecOn with
  | nil =>
    -- nothing above the base begins with the base
    rw [List.append_nil]
    rcases List.eq_nil_or_concat bs with rfl | ⟨above, last, rfl⟩
    · rfl
    · rw [List.concat_eq_append] at hbs ⊢
      have habove : ∀ n ∈ above, IsName n := fun n hn => hbs n (List.mem_append_left _ hn)
      have hstart : (ofNames true above).startsWith (ofNames true (above ++ [last])) = false := by
        rw [Bool.eq_false_iff, ne_eq, startsWith_ofNames_iff habove hbs]
        intro hle
        simpa using hle.length_le
      rw [goesUp_ofNames.parents_concat hbs, List.takeWhile_cons_of_neg (by simp [hstart])]
      rfl
  | append_singleton rest name ih =>
    have hall' : ∀ n ∈ bs ++ rest ++ [name], IsName n := by rwa [List.append_assoc]
    have hfront : ∀ n ∈ bs ++ rest, IsName n := fun n hn => hall' n (List.mem_append_left _ hn)
    rw [← List.append_assoc, goesUp_ofNames.parents_concat hall']
    have hstart : (ofNames true (bs ++ rest)).startsWith (ofNames true bs) = true :=
      (startsWith_ofNames_iff hfront hbs).mpr (List.prefix_append _ _)
    by_cases hrest : rest = []
    · -- the base itself is the end
      have hsame : (ofNames true (bs ++ rest)).sameAs (ofNames true bs) = true :=
        (sameAs_ofNames_iff hfront hbs).mpr (by rw [hrest, List.append_nil])
      rw [List.takeWhile_cons_of_neg (by simp [hsame]), hrest]
      rfl
    · have hother : (ofNames true (bs ++ rest)).sameAs (ofNames true bs) = false := by
        rw [Bool.eq_false_iff, ne_eq, sameAs_ofNames_iff hfront hbs]
        simpa using hrest
      rw [List.takeWhile_cons_of_pos (by simp [hother, hstart]), ih hfront, fronts_concat hrest,
        List.map_append, List.reverse_append]
      rfl

end Path

namespace Archive

open DeployClient.Path (fronts ofNames)

variable {fs : FileSystem} {base p q : Path} {n d : Node} {name : Bytes}

/-! ### Nodes on the way -/

/-- A node that is seen below a base, and its name there. -/
structure Placed (fs : FileSystem) (base p : Path) (n : Node) (name : Bytes) : Prop where
  sighted : Sighted fs base p n
  named : Path.nameBelow base p = .named name
  notBase : name ≠ baseName

namespace Placed

lemma unique {n' : Node} {name' : Bytes} (h : Placed fs base p n name)
    (h' : Placed fs base p n' name') : n = n' ∧ name = name' :=
  ⟨Except.ok.inj (h.sighted.lstat.symm.trans h'.sighted.lstat),
    Naming.named.inj (h.named.symm.trans h'.named)⟩

/-- Each name has its own node. -/
lemma eq_of_name (h : Placed fs base p n name) (h' : Placed fs base q d name) : p = q :=
  (h.sighted.unique h'.sighted h.named h'.named).1

lemma exists_below (h : Placed fs base p n name) : ∃ bs rest, Path.Below base p bs rest :=
  Path.below_of_startsWith h.sighted.normalBase h.sighted.normal h.sighted.below

lemma notMem_parentsBelow (h : Placed fs base p n name) : p ∉ parentsBelow p base := by
  obtain ⟨bs, rest, hbelow⟩ := h.exists_below
  rw [Path.parentsBelow_of_below hbelow]
  intro hmem
  obtain ⟨front, hfront, he⟩ := List.mem_map.mp hmem
  have hsame := Path.ofNames_injective (hbelow.of_mem_fronts hfront).isName hbelow.isName
    (he.trans hbelow.path)
  rw [List.append_cancel_left hsame] at hfront
  exact Path.notMem_fronts rest hfront

lemma nodup_parentsBelow (h : Placed fs base p n name) : (parentsBelow p base).Nodup := by
  obtain ⟨bs, rest, hbelow⟩ := h.exists_below
  rw [Path.parentsBelow_of_below hbelow]
  refine List.Nodup.map_on (fun front hfront front' hfront' he => ?_) (Path.nodup_fronts rest)
  exact List.append_cancel_left (Path.ofNames_injective (hbelow.of_mem_fronts hfront).isName
    (hbelow.of_mem_fronts hfront').isName he)

/-- What lies on the way to a node with a name has a name, too. -/
lemma exists_of_mem_parentsBelow (h : Placed fs base p n name) (hq : q ∈ parentsBelow p base) :
    ∃ d name', Placed fs base q d name' := by
  obtain ⟨d, hd⟩ := FileSystem.lstat_parent h.sighted.normal
    (mem_parents_of_mem_parentsBelow hq).1 h.sighted.lstat
  have hsighted := h.sighted.of_mem_parentsBelow hq hd
  obtain ⟨bs, rest, hbelow⟩ := h.exists_below
  rw [Path.parentsBelow_of_below hbelow] at hq
  obtain ⟨front, hfront, rfl⟩ := List.mem_map.mp hq
  have hbelow' := hbelow.of_mem_fronts hfront
  obtain ⟨hne, later, -, rfl⟩ := Path.exists_of_mem_fronts hfront
  have htext : (front ++ later).all (fun n => (Bytes.toText? n).isSome) = true := by
    have hnamed := h.named
    rw [Path.nameBelow_of_below hbelow] at hnamed
    split at hnamed
    · assumption
    · simp at hnamed
  rw [List.all_append, Bool.and_eq_true] at htext
  refine ⟨d, Path.nameOf front, hsighted, by rw [Path.nameBelow_of_below hbelow', if_pos htext.1],
    fun he => hne ?_⟩
  exact (Path.nameOf_eq_baseName_iff
    fun n hn => hbelow'.isName n (List.mem_append_right _ hn)).mp he

end Placed

end Archive

end DeployClient
