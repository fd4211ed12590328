import DeployClient.Proofs.Lookup
import Mathlib.Data.List.Lex

/-!
The order in which a walk shows what it finds.

Paths are compared component by component, and names by their bytes. So a directory comes before
its contents, and the contents of `a` come before `a.txt`, although a dot comes before a slash.
-/

namespace DeployClient

open DeployClient.Path (IsName)
open FileSystem (steps endsWithSlash)
open Bytes (slash dot)

/-! ### The order of paths -/

namespace Path

variable {p q : Path} {name : Bytes} {names : List Bytes}

namespace Component

def rank : Component → ℕ
  | root => 0
  | current => 1
  | parent => 2
  | normal _ => 3

/-- Names are compared byte by byte, and come after all other components. -/
def Before : Component → Component → Prop
  | normal a, normal b => a < b
  | c, d => c.rank < d.rank

instance : DecidableRel Before := fun c d => by
  unfold Before
  split <;> infer_instance

lemma not_before_self (c : Component) : ¬ c.Before c := by
  cases c with
  | normal name => exact List.lt_irrefl name
  | _ => exact Nat.lt_irrefl _

end Component

/-- The first path comes first, by the first component in which they differ. -/
def Precedes (p q : Path) : Prop := List.Lex Component.Before p.components q.components

instance : DecidableRel Precedes := fun p q =>
  inferInstanceAs (Decidable (List.Lex Component.Before p.components q.components))

lemma not_lex_self {cs : List Component} : ¬ List.Lex Component.Before cs cs := by
  induction cs with
  | nil => exact nofun
  | cons c cs ih =>
    intro h
    cases h with
    | cons h => exact ih h
    | rel h => exact c.not_before_self h

lemma Precedes.ne (h : p.Precedes q) : p ≠ q := by
  rintro rfl
  exact not_lex_self h

/-! ### Names behind a path -/

/-- The second path is the first one with some names behind it. -/
structure Extends (p : Path) (names : List Bytes) (q : Path) : Prop where
  isName : ∀ m ∈ names, IsName m
  nonempty : q.bytes ≠ []
  isAbsolute : q.isAbsolute = p.isAbsolute
  components : q.components = p.components ++ names.map .normal
  steps : steps q.bytes = steps p.bytes ++ names
  slashed : names ≠ [] → endsWithSlash q.bytes = false

lemma child_eq (hp : p.bytes ≠ []) (hname : IsName name) : p.child name
    = ⟨p.bytes ++ if p.bytes.getLast? = some slash then name else slash :: name⟩ := by
  have hrel : isAbsolute ⟨name⟩ = false :=
    decide_eq_false fun h => hname.2.1 (List.mem_of_mem_head? h)
  rw [child, join, hrel]
  simp only [Bool.false_eq_true, if_false, hp, false_or]
  split <;> rfl

/-- A slash at the end is not written twice. -/
lemma exists_parts_child (hp : p.bytes ≠ []) (hname : IsName name) :
    ∃ front, front ≠ [] ∧ (p.parts = front ∨ p.parts = front ++ [[]])
      ∧ (p.child name).parts = front ++ [name] := by
  have hsplit : name.splitOn slash = [name] := List.splitOn_eq_singleton hname.2.1
  rw [child_eq hp hname, parts, parts]
  by_cases hlast : p.bytes.getLast? = some slash
  · obtain ⟨b, hb⟩ := List.getLast?_eq_some_iff.mp hlast
    refine ⟨b.splitOn slash, List.splitOn_ne_nil slash b, .inr ?_, ?_⟩
    · rw [hb, List.splitOn_append_cons_self]
      rfl
    · rw [if_pos hlast, hb, List.append_assoc, List.singleton_append,
        List.splitOn_append_cons_self, hsplit]
  · refine ⟨p.bytes.splitOn slash, List.splitOn_ne_nil slash p.bytes, .inl rfl, ?_⟩
    rw [if_neg hlast, List.splitOn_append_cons_self, hsplit]

lemma extends_self (hp : p.bytes ≠ []) : p.Extends [] p :=
  ⟨by simp, hp, rfl, by simp, by simp, nofun⟩

lemma extends_child (hp : p.bytes ≠ []) (hname : IsName name) :
    p.Extends [name] (p.child name) := by
  obtain ⟨front, hfront, hparts, hchild⟩ := exists_parts_child hp hname
  have habs : (p.child name).isAbsolute = p.isAbsolute := by
    rw [child_eq hp hname, isAbsolute, isAbsolute, List.head?_append_of_ne_nil _ hp]
  have hdot : (p.child name).startsWithDot = p.startsWithDot := by
    rw [startsWithDot, startsWithDot, hchild, List.head?_append_of_ne_nil _ hfront]
    rcases hparts with h | h
    · rw [h]
    · rw [h, List.head?_append_of_ne_nil _ hfront]
  have hinner : (p.child name).innerComponents = p.innerComponents ++ [.normal name] := by
    rw [innerComponents, innerComponents, hchild, List.filterMap_append,
      List.filterMap_cons_some (ofPart_name hname)]
    rcases hparts with h | h
    · rw [h]
      rfl
    · rw [h, List.filterMap_append, List.filterMap_cons_none (by simp [Component.ofPart])]
      simp
  have hbytes : (p.child name).bytes ≠ [] := by simp [child_eq hp hname, hp]
  refine ⟨by simpa using hname, hbytes, habs, ?_, ?_, fun _ => ?_⟩
  · simp only [Path.components, habs, hdot, hinner]
    split
    · rfl
    · split <;> rfl
  · show (p.child name).parts.filter (· ≠ []) = p.parts.filter (· ≠ []) ++ [name]
    rw [hchild, List.filter_append, List.filter_cons_of_pos (by simpa using hname.1)]
    rcases hparts with h | h
    · rw [h]
      rfl
    · rw [h, List.filter_append, List.filter_cons_of_neg (by simp)]
      simp
  · obtain ⟨init, hinit⟩ : ∃ init, (p.child name).bytes = init ++ name := by
      rw [child_eq hp hname]
      split
      · exact ⟨_, rfl⟩
      · exact ⟨p.bytes ++ [slash], by simp⟩
    refine decide_eq_false ?_
    rw [hinit, List.getLast?_append_of_ne_nil _ hname.1]
    exact fun h => hname.2.1 (List.mem_of_getLast? h)

lemma Extends.child (h : p.Extends names q) (hname : IsName name) :
    p.Extends (names ++ [name]) (q.child name) := by
  have h' := extends_child h.nonempty hname
  refine ⟨Path.forall_isName_append h.isName hname, h'.nonempty,
    h'.isAbsolute.trans h.isAbsolute, ?_, ?_, fun _ => h'.slashed (by simp)⟩
  · rw [h'.components, h.components, List.append_assoc, ← List.map_append]
  · rw [h'.steps, h.steps, List.append_assoc]

variable {first second : List Bytes} {a b : Bytes} {r : Path}

lemma components_below (hp : p.bytes ≠ []) (ha : IsName a) (hq : (p.child a).Extends names q) :
    q.components = p.components ++ .normal a :: names.map .normal := by
  rw [hq.components, (extends_child hp ha).components, List.append_assoc]
  rfl

lemma precedes_below (hp : p.bytes ≠ []) (ha : IsName a) (hq : (p.child a).Extends names q) :
    p.Precedes q := by
  rw [Precedes, components_below hp ha hq]
  simpa using List.Lex.append_left Component.Before List.Lex.nil p.components

/-- What lies below two names is in the order of the names. -/
lemma precedes_of_lt (hp : p.bytes ≠ []) (ha : IsName a) (hb : IsName b) (hlt : a < b)
    (hq : (p.child a).Extends first q) (hr : (p.child b).Extends second r) : q.Precedes r := by
  have hbefore : (Component.normal a).Before (.normal b) := hlt
  rw [Precedes, components_below hp ha hq, components_below hp hb hr]
  exact List.Lex.append_left _ (.rel hbefore) _

end Path

/-! ### What is found -/

namespace Node

variable {n d k : Node} {p q root : Path} {parts : List (Bytes × List Visit)}

/-- What is reached stands below the root by the names that are gone along. -/
lemma Descends.exists_extends (hroot : root.bytes ≠ []) (hn : n.isProper = true)
    (h : Descends root n q k) :
    ∃ names, root.Extends names q ∧ n.descend? names = some k ∧ k.isProper = true := by
  induction h with
  | self => exact ⟨[], Path.extends_self hroot, rfl, hn⟩
  | child _ hmem ih =>
    obtain ⟨names, hext, hd, hproper⟩ := ih
    obtain ⟨hname, hk⟩ := of_mem_entries hproper hmem
    refine ⟨_, hext.child hname, ?_, hk⟩
    rw [descend?_append, hd, Option.bind_some, descend?_cons, entry?_of_mem hproper hmem]
    rfl

/-- Parts that are each in some order are in it together, if it goes with the names. -/
lemma pairwise_inNameOrder {R : Visit → Visit → Prop} (hnodup : (parts.map Prod.fst).Nodup)
    (hpart : ∀ part ∈ parts, part.2.Pairwise R)
    (hlt : ∀ a ∈ parts, ∀ b ∈ parts, a.1 < b.1 → ∀ v ∈ a.2, ∀ w ∈ b.2, R v w) :
    (inNameOrder parts).Pairwise R := by
  have hsorted := @List.pairwise_mergeSort _ (fun a b : Bytes × List Visit => a.1 ≤ b.1)
    (fun a b c h h' => by simpa using List.le_trans (by simpa using h) (by simpa using h'))
    (fun a b => by simpa using List.le_total a.1 b.1) parts
  have hperm := List.mergeSort_perm parts fun a b => a.1 ≤ b.1
  have hne := List.pairwise_map.mp ((hperm.map Prod.fst).nodup_iff.mpr hnodup)
  refine List.pairwise_flatMap.mpr ⟨fun a ha => hpart a (hperm.mem_iff.mp ha), ?_⟩
  refine (hsorted.and hne).imp_of_mem fun {a b} ha hb hab => ?_
  have hle : a.1 ≤ b.1 := by simpa using hab.1
  exact hlt a (hperm.mem_iff.mp ha) b (hperm.mem_iff.mp hb) (Std.lt_of_le_of_ne hle hab.2)

lemma map_fst_entryVisits (p : Path) (es : List (Bytes × Node)) :
    (entryVisits p es).map Prod.fst = es.map Prod.fst := by
  induction es with
  | nil => rfl
  | cons e es ih => rw [entryVisits, List.map_cons, ih, List.map_cons]

/-- **A walk goes up in the order of the paths.** -/
theorem visits_increasing (hp : p.bytes ≠ []) (hn : n.isProper = true) :
    (visits p n).Pairwise fun v w => v.1.Precedes w.1 := by
  induction hsize : sizeOf n using Nat.strongRecOn generalizing n p with
  | _ size ih =>
    cases n with
    | directory stamp es =>
      have hentry : ∀ e ∈ es, IsName e.1 ∧ e.2.isProper = true :=
        fun e he => of_mem_entries (d := .directory stamp es) hn he
      have hbelow : ∀ e ∈ es, ∀ v ∈ visits (p.child e.1) e.2,
          ∃ names, (p.child e.1).Extends names v.1 := by
        intro e he v hv
        have hchild := Path.extends_child hp (hentry e he).1
        obtain ⟨names, hext, -⟩ := (mem_visits_iff_descends.mp hv).exists_extends
          hchild.nonempty (hentry e he).2
        exact ⟨names, hext⟩
      rw [visits, List.pairwise_cons]
      constructor
      · intro v hv
        obtain ⟨part, hpart, hv⟩ := mem_inNameOrder.mp hv
        obtain ⟨e, he, rfl⟩ := mem_entryVisits.mp hpart
        obtain ⟨names, hext⟩ := hbelow e he v hv
        exact Path.precedes_below hp (hentry e he).1 hext
      · have hnodup : ((entryVisits p es).map Prod.fst).Nodup := by
          rw [map_fst_entryVisits]
          exact (isProper_entries hn).1
        refine pairwise_inNameOrder hnodup ?_ ?_
        · intro part hpart
          obtain ⟨e, he, rfl⟩ := mem_entryVisits.mp hpart
          have hless : sizeOf e.2 < sizeOf (directory stamp es) := sizeOf_lt_of_mem_entries he
          exact ih _ (hsize ▸ hless) (Path.extends_child hp (hentry e he).1).nonempty
            (hentry e he).2 rfl
        · intro part hpart part' hpart' hlt v hv w hw
          obtain ⟨e, he, rfl⟩ := mem_entryVisits.mp hpart
          obtain ⟨e', he', rfl⟩ := mem_entryVisits.mp hpart'
          obtain ⟨first, hv⟩ := hbelow e he v hv
          obtain ⟨second, hw⟩ := hbelow e' he' w hw
          exact Path.precedes_of_lt hp (hentry e he).1 (hentry e' he').1 hlt hv hw
    | _ => exact List.pairwise_singleton _ _

end Node

end DeployClient
