import DeployClient.Path.Containment
import Mathlib.Data.List.Basic
import Mathlib.Data.List.Induction

/-!
Absolute paths in normal form, as lists of names.

A path `ofNames true names` with proper names is in normal form: its components are the root
and the names, so everything that is asked of such paths is a question about lists.
-/

namespace DeployClient.Path

open DeployClient.Bytes (slash dot)

/-- What the entry of a directory can be called. -/
def IsName (b : Bytes) : Prop := b ≠ [] ∧ slash ∉ b ∧ b ≠ [dot] ∧ b ≠ [dot, dot]

instance (b : Bytes) : Decidable (IsName b) :=
  inferInstanceAs (Decidable (b ≠ [] ∧ slash ∉ b ∧ b ≠ [dot] ∧ b ≠ [dot, dot]))

variable {names others : List Bytes} {name : Bytes}

lemma forall_isName_append (h : ∀ n ∈ names, IsName n) (hname : IsName name) :
    ∀ n ∈ names ++ [name], IsName n := by
  intro n hn
  rcases List.mem_append.mp hn with hn | hn
  · exact h n hn
  · exact List.mem_singleton.mp hn ▸ hname

/-! ### Joining and splitting -/

@[simp] lemma joinNames_nil : joinNames [] = [] := rfl
@[simp] lemma joinNames_singleton (n : Bytes) : joinNames [n] = n := List.intercalate_singleton
lemma joinNames_cons (n : Bytes) (h : names ≠ []) :
    joinNames (n :: names) = n ++ slash :: joinNames names := by
  simp [joinNames, List.intercalate_cons_of_ne_nil h]

lemma splitOn_joinNames (h : ∀ n ∈ names, slash ∉ n) (hne : names ≠ []) :
    (joinNames names).splitOn slash = names :=
  List.splitOn_intercalate slash h hne

lemma joinNames_splitOn (b : Bytes) : joinNames (b.splitOn slash) = b :=
  List.intercalate_splitOn slash

lemma not_of_mem_splitOnP {α : Type} {p : α → Bool} {xs part : List α}
    (h : part ∈ xs.splitOnP p) : ∀ x ∈ part, p x = false := by
  induction xs generalizing part with
  | nil => simp_all
  | cons x xs ih =>
    rw [List.splitOnP_cons_eq_if_modifyHead] at h
    split at h
    · rcases List.mem_cons.mp h with rfl | h
      · simp
      · exact ih h
    · next hx =>
      obtain ⟨first, parts, hparts⟩ := List.exists_cons_of_ne_nil (List.splitOnP_ne_nil p xs)
      rw [hparts, List.modifyHead_cons] at h
      rcases List.mem_cons.mp h with rfl | h
      · exact List.forall_mem_cons.mpr ⟨by simpa using hx, ih (hparts ▸ List.mem_cons_self)⟩
      · exact ih (hparts ▸ List.mem_cons_of_mem _ h)

lemma slash_notMem_of_mem_splitOn {b part : Bytes} (h : part ∈ b.splitOn slash) :
    slash ∉ part := by
  intro hslash
  rw [List.splitOn_eq_splitOnP] at h
  simpa using not_of_mem_splitOnP h slash hslash

lemma joinNames_append (h : names ≠ []) (h' : others ≠ []) :
    joinNames (names ++ others) = joinNames names ++ slash :: joinNames others := by
  induction names with
  | nil => exact absurd rfl h
  | cons n names ih =>
    rcases names with _ | ⟨m, names⟩
    · rw [List.singleton_append, joinNames_cons n h', joinNames_singleton]
    · rw [List.cons_append, joinNames_cons n (by simp), ih (by simp), joinNames_cons n (by simp)]
      simp

lemma joinNames_append_singleton (h : names ≠ []) :
    joinNames (names ++ [name]) = joinNames names ++ slash :: name := by
  rw [joinNames_append h (List.cons_ne_nil name []), joinNames_singleton]

lemma joinNames_ne_nil (h : ∀ n ∈ names, IsName n) (hne : names ≠ []) : joinNames names ≠ [] := by
  intro hnil
  have hsplit := splitOn_joinNames (fun n hn => (h n hn).2.1) hne
  rw [hnil, List.splitOn_nil] at hsplit
  exact (h [] (hsplit ▸ List.mem_singleton_self _)).1 rfl

lemma head?_joinNames (h : ∀ n ∈ names, IsName n) : (joinNames names).head? ≠ some slash := by
  rcases names with _ | ⟨n, rest⟩
  · simp
  · obtain ⟨hnil, hslash, -⟩ := h n List.mem_cons_self
    obtain ⟨x, n, rfl⟩ := List.exists_cons_of_ne_nil hnil
    have hx : x ≠ slash := fun e => hslash (e ▸ List.mem_cons_self)
    by_cases hrest : rest = []
    · simpa [hrest] using hx
    · simpa [joinNames_cons _ hrest] using hx

lemma joinNames_injective (h : ∀ n ∈ names, IsName n) (h' : ∀ n ∈ others, IsName n)
    (he : joinNames names = joinNames others) : names = others := by
  by_cases hn : names = []
  · by_cases ho : others = []
    · rw [hn, ho]
    · exact absurd (he ▸ hn ▸ rfl) (joinNames_ne_nil h' ho)
  · by_cases ho : others = []
    · exact absurd (he.trans (ho ▸ rfl)) (joinNames_ne_nil h hn)
    · rw [← splitOn_joinNames (fun n hm => (h n hm).2.1) hn, he,
        splitOn_joinNames (fun n hm => (h' n hm).2.1) ho]

lemma length_joinNames_le {l m : List Bytes} (h : l.Sublist m) :
    (joinNames l).length ≤ (joinNames m).length := by
  induction h with
  | slnil => exact Nat.le_refl _
  | @cons l m x h ih =>
    by_cases hm : m = []
    · rw [hm] at h ih
      rw [hm, List.sublist_nil.mp h]
      simp
    · rw [joinNames_cons x hm, List.length_append, List.length_cons]
      omega
  | @cons_cons l m x h ih =>
    by_cases hm : m = []
    · subst hm
      obtain rfl := List.sublist_nil.mp h
      exact Nat.le_refl _
    · by_cases hl : l = []
      · rw [hl, joinNames_cons x hm, joinNames_singleton, List.length_append]
        omega
      · rw [joinNames_cons x hm, joinNames_cons x hl]
        simp only [List.length_append, List.length_cons]
        omega

lemma mem_joinNames {x : UInt8} (h : x ∈ joinNames names) : x = slash ∨ ∃ n ∈ names, x ∈ n := by
  induction names with
  | nil => simp at h
  | cons n names ih =>
    by_cases hne : names = []
    · subst hne
      exact .inr ⟨n, List.mem_cons_self, by simpa using h⟩
    · rw [joinNames_cons n hne] at h
      rcases List.mem_append.mp h with h | h
      · exact .inr ⟨n, List.mem_cons_self, h⟩
      · rcases List.mem_cons.mp h with h | h
        · exact .inl h
        · rcases ih h with h | ⟨m, hm, h⟩
          · exact .inl h
          · exact .inr ⟨m, List.mem_cons_of_mem _ hm, h⟩

lemma mem_joinNames_of_mem (h : name ∈ names) {x : UInt8} (hx : x ∈ name) :
    x ∈ joinNames names := by
  induction names with
  | nil => simp at h
  | cons n names ih =>
    by_cases hne : names = []
    · subst hne
      obtain rfl := List.mem_singleton.mp h
      simpa using hx
    · rw [joinNames_cons n hne]
      rcases List.mem_cons.mp h with rfl | h
      · exact List.mem_append_left _ hx
      · exact List.mem_append_right _ (List.mem_cons_of_mem _ (ih h))

lemma mem_of_mem_splitOn {b part : Bytes} (h : part ∈ b.splitOn slash) {x : UInt8}
    (hx : x ∈ part) : x ∈ b := by
  rw [← joinNames_splitOn b]
  exact mem_joinNames_of_mem h hx

lemma length_le_of_mem_splitOn {b part : Bytes} (h : part ∈ b.splitOn slash) :
    part.length ≤ b.length := by
  have hle := length_joinNames_le (List.singleton_sublist.mpr h)
  rwa [joinNames_singleton, joinNames_splitOn] at hle

lemma lastPart_mem (b : Bytes) : lastPart b ∈ b.splitOn slash := by
  have hne := List.splitOn_ne_nil slash b
  rw [lastPart, List.getLastD_eq_getLast?, List.getLast?_eq_some_getLast hne, Option.getD_some]
  exact List.getLast_mem hne

/-! ### Components -/

lemma ofPart_eq_normal_iff {part : Bytes} :
    Component.ofPart part = some (.normal name)
      ↔ part = name ∧ name ≠ [] ∧ name ≠ [dot] ∧ name ≠ [dot, dot] := by
  unfold Component.ofPart
  constructor
  · intro h
    split at h
    · simp at h
    · next h1 =>
      split at h
      · simp at h
      · next h2 =>
        obtain rfl : part = name := by simpa using h
        exact ⟨rfl, fun e => h1 (.inl e), fun e => h1 (.inr e), h2⟩
  · rintro ⟨rfl, h1, h2, h3⟩
    simp [h1, h2, h3]

lemma isName_of_ofPart {part : Bytes} (hs : slash ∉ part)
    (h : Component.ofPart part = some (.normal name)) : IsName name := by
  obtain ⟨rfl, h1, h2, h3⟩ := ofPart_eq_normal_iff.mp h
  exact ⟨h1, hs, h2, h3⟩

lemma ofPart_name (h : IsName name) : Component.ofPart name = some (.normal name) :=
  ofPart_eq_normal_iff.mpr ⟨rfl, h.1, h.2.2.1, h.2.2.2⟩

lemma filterMap_ofPart (h : ∀ n ∈ names, IsName n) :
    names.filterMap Component.ofPart = names.map .normal := by
  induction names with
  | nil => rfl
  | cons n names ih =>
    rw [List.filterMap_cons_some (ofPart_name (h n List.mem_cons_self)), List.map_cons,
      ih fun m hm => h m (List.mem_cons_of_mem _ hm)]

lemma isAbsolute_ofNames (names : List Bytes) : (ofNames true names).isAbsolute = true := rfl

lemma innerComponents_ofNames (h : ∀ n ∈ names, IsName n) :
    (ofNames true names).innerComponents = names.map .normal := by
  have hsplit : (ofNames true names).parts = [] :: (joinNames names).splitOn slash := by
    simp [parts, ofNames, List.splitOn_cons_eq_if_modifyHead]
  rw [innerComponents, hsplit]
  by_cases hne : names = []
  · subst hne
    rfl
  · rw [splitOn_joinNames (fun n hn => (h n hn).2.1) hne]
    exact filterMap_ofPart h

lemma components_ofNames (h : ∀ n ∈ names, IsName n) :
    (ofNames true names).components = .root :: names.map .normal := by
  rw [components, if_pos (isAbsolute_ofNames names), innerComponents_ofNames h]

lemma map_normal_injective (h : names.map Component.normal = others.map Component.normal) :
    names = others :=
  List.map_injective_iff.mpr (fun _ _ e => Component.normal.inj e) h

lemma ofNames_injective (h : ∀ n ∈ names, IsName n) (h' : ∀ n ∈ others, IsName n)
    (he : ofNames true names = ofNames true others) : names = others := by
  have hc := congrArg components he
  rw [components_ofNames h, components_ofNames h'] at hc
  exact map_normal_injective (List.cons.inj hc).2

/-! ### Normal form -/

/-- An absolute path in normal form. -/
def IsNormal (p : Path) : Prop := ∃ names, p = ofNames true names ∧ ∀ n ∈ names, IsName n

lemma isName_of_mem_collapse {cs : List Component} (h : ∀ n, .normal n ∈ cs → IsName n) :
    ∀ n ∈ collapse cs, IsName n := by
  suffices key : ∀ start : List Bytes, (∀ n ∈ start, IsName n) →
      ∀ n ∈ cs.foldl follow start, IsName n from key [] (by simp)
  induction cs with
  | nil => exact fun start hs => hs
  | cons c cs ih =>
    intro start hs
    refine ih (fun n hn => h n (List.mem_cons_of_mem _ hn)) (follow start c) ?_
    cases c with
    | root => simp [follow]
    | current => exact hs
    | parent => exact fun n hn => hs n (List.dropLast_subset _ hn)
    | normal name =>
      intro n hn
      rcases List.mem_append.mp hn with hn | hn
      · exact hs n hn
      · rw [List.mem_singleton.mp hn]
        exact h name List.mem_cons_self

lemma isName_of_mem_components {p : Path} (h : .normal name ∈ p.components) : IsName name := by
  have hinner : .normal name ∈ p.innerComponents := by
    unfold components at h
    split at h
    · simpa using h
    · split at h
      · simpa using h
      · exact h
  obtain ⟨part, hpart, hof⟩ := List.mem_filterMap.mp hinner
  exact isName_of_ofPart (slash_notMem_of_mem_splitOn hpart) hof

lemma isNormal_normalize {p : Path} (h : p.isAbsolute = true) : p.normalize.IsNormal :=
  ⟨collapse p.components, by rw [normalize, h],
    isName_of_mem_collapse fun _ hn => isName_of_mem_components hn⟩

lemma isAbsolute_join {p q : Path} (h : p.isAbsolute = true) : (p.join q).isAbsolute = true := by
  obtain ⟨b⟩ := p
  unfold join
  split
  · assumption
  · rcases b with _ | ⟨x, b⟩
    · simp [isAbsolute] at h
    · split <;> simpa [isAbsolute] using h

lemma IsNormal.isAbsolute {p : Path} (h : p.IsNormal) : p.isAbsolute = true := by
  obtain ⟨names, rfl, -⟩ := h
  rfl

/-! ### Going down -/

/-- Only the root ends with a slash. -/
lemma getLast?_ofNames (h : ∀ n ∈ names, IsName n) (hne : names ≠ []) :
    (ofNames true names).bytes.getLast? ≠ some slash := by
  obtain ⟨front, last, rfl⟩ : ∃ front last, names = front ++ [last] :=
    ⟨names.dropLast, names.getLast hne, (List.dropLast_append_getLast hne).symm⟩
  have hl := h last (by simp)
  have hend : ∃ start, (ofNames true (front ++ [last])).bytes = start ++ last := by
    by_cases hf : front = []
    · exact ⟨[slash], by simp [ofNames, hf]⟩
    · exact ⟨slash :: (joinNames front ++ [slash]), by
        simp [ofNames, joinNames_append_singleton hf]⟩
  obtain ⟨start, hstart⟩ := hend
  rw [hstart, List.getLast?_append_of_ne_nil _ hl.1]
  exact fun e => hl.2.1 (List.mem_of_getLast? e)

lemma join_ofNames (h : ∀ n ∈ names ++ others, IsName n) (hne : others ≠ []) :
    (ofNames true names).join ⟨joinNames others⟩ = ofNames true (names ++ others) := by
  have hnames : ∀ n ∈ names, IsName n := fun n hn => h n (List.mem_append_left _ hn)
  have hrel : isAbsolute ⟨joinNames others⟩ = false :=
    decide_eq_false (head?_joinNames fun n hn => h n (List.mem_append_right _ hn))
  rw [join, hrel]
  by_cases hnil : names = []
  · subst hnil
    simp [ofNames]
  · have hlast := getLast?_ofNames hnames hnil
    have hbytes : (ofNames true names).bytes ≠ [] := by simp [ofNames]
    simp only [Bool.false_eq_true, if_false]
    rw [if_neg (not_or.mpr ⟨hbytes, hlast⟩)]
    simp [ofNames, joinNames_append hnil hne]

lemma child_ofNames (h : ∀ n ∈ names, IsName n) (hname : IsName name) :
    (ofNames true names).child name = ofNames true (names ++ [name]) := by
  rw [child, ← join_ofNames (forall_isName_append h hname) (List.cons_ne_nil name []),
    joinNames_singleton]

lemma IsNormal.child {p : Path} (hp : p.IsNormal) (hname : IsName name) :
    (p.child name).IsNormal := by
  obtain ⟨names, rfl, hn⟩ := hp
  exact ⟨names ++ [name], child_ofNames hn hname, forall_isName_append hn hname⟩

lemma components_child {p : Path} (hp : p.IsNormal) (hname : IsName name) :
    (p.child name).components = p.components ++ [.normal name] := by
  obtain ⟨names, rfl, hn⟩ := hp
  rw [child_ofNames hn hname, components_ofNames (forall_isName_append hn hname),
    components_ofNames hn, List.map_append]
  rfl

lemma startsWith_iff {p base : Path} :
    p.startsWith base = true ↔ base.components <+: p.components := by
  rw [startsWith, List.isPrefixOf_iff_prefix]

lemma startsWith_self (p : Path) : p.startsWith p = true := startsWith_iff.mpr (List.prefix_refl _)

lemma eq_of_components {p q : Path} (hp : p.IsNormal) (hq : q.IsNormal)
    (h : p.components = q.components) : p = q := by
  obtain ⟨names, rfl, hnames⟩ := hp
  obtain ⟨others, rfl, hothers⟩ := hq
  rw [components_ofNames hnames, components_ofNames hothers] at h
  rw [map_normal_injective (List.cons.inj h).2]

lemma eq_of_startsWith {p q : Path} (hp : p.IsNormal) (hq : q.IsNormal)
    (h : p.startsWith q = true) (h' : q.startsWith p = true) : p = q :=
  eq_of_components hp hq
    ((startsWith_iff.mp h').eq_of_length_le (startsWith_iff.mp h).length_le)

lemma startsWith_trans {p q r : Path} (h : p.startsWith q = true) (h' : q.startsWith r = true) :
    p.startsWith r = true :=
  startsWith_iff.mpr ((startsWith_iff.mp h').trans (startsWith_iff.mp h))

lemma startsWith_child {p base : Path} (hp : p.IsNormal) (hname : IsName name)
    (h : p.startsWith base = true) : (p.child name).startsWith base = true := by
  rw [startsWith_iff, components_child hp hname]
  exact (startsWith_iff.mp h).trans (List.prefix_append _ _)

/-! ### Going up -/

lemma trimParts_names (h : ∀ n ∈ names, IsName n) : trimParts names = names := by
  rw [trimParts]
  rcases hr : names.reverse with _ | ⟨last, front⟩
  · simpa using hr.symm
  · have hlast : IsName last := h last (List.mem_reverse.mp (hr ▸ List.mem_cons_self))
    rw [List.dropWhile_cons_of_neg (by simp [ofPart_name hlast]), ← hr, List.reverse_reverse]

lemma parent?_ofNames_nil : (ofNames true []).parent? = none := rfl

lemma parent?_ofNames (h : ∀ n ∈ names ++ [name], IsName n) :
    (ofNames true (names ++ [name])).parent? = some (ofNames true names) := by
  have hsplit : (joinNames (names ++ [name])).splitOn slash = names ++ [name] :=
    splitOn_joinNames (fun n hn => (h n hn).2.1) (by simp)
  have hfront : ∀ n ∈ names, IsName n := fun n hn => h n (List.mem_append_left _ hn)
  have hhead : (ofNames true (names ++ [name])).splitHead
      = ([slash], joinNames (names ++ [name])) := by
    rw [splitHead, if_pos (.inl (isAbsolute_ofNames _))]
    simp [ofNames]
  obtain ⟨m, ms, hm⟩ := List.exists_cons_of_ne_nil (show names ++ [name] ≠ [] by simp)
  have hdrop : (m :: ms).dropLast = names := by rw [← hm, List.dropLast_concat]
  simp only [parent?, hhead, hsplit, trimParts_names h]
  rw [hm]
  simp only [hdrop, trimParts_names hfront]
  rfl

/-- The parents of a path in normal form hold fewer of its names. -/
lemma mem_parentsUpTo {k : Nat} {q : Path} (h : ∀ n ∈ names, IsName n)
    (hq : q ∈ parentsUpTo k (ofNames true names)) :
    ∃ front rest, names = front ++ rest ∧ rest ≠ [] ∧ q = ofNames true front := by
  induction k generalizing names with
  | zero => simp [parentsUpTo] at hq
  | succ k ih =>
    rcases List.eq_nil_or_concat names with rfl | ⟨front, last, rfl⟩
    · simp [parentsUpTo, parent?_ofNames_nil] at hq
    · rw [List.concat_eq_append] at h ⊢
      rw [List.concat_eq_append, parentsUpTo, parent?_ofNames h] at hq
      rcases List.mem_cons.mp hq with rfl | hq
      · exact ⟨front, [last], rfl, by simp, rfl⟩
      · obtain ⟨f, r, rfl, -, rfl⟩ := ih (fun n hn => h n (List.mem_append_left _ hn)) hq
        exact ⟨f, r ++ [last], by simp, by simp, rfl⟩

lemma IsNormal.of_mem_parents {p q : Path} (hp : p.IsNormal) (hq : q ∈ p.parents) :
    q.IsNormal := by
  obtain ⟨names, rfl, hn⟩ := hp
  obtain ⟨front, rest, rfl, -, rfl⟩ := mem_parentsUpTo hn hq
  exact ⟨front, rfl, fun n hm => hn n (List.mem_append_left _ hm)⟩

/-! ### Going up from a name -/

lemma length_le_joinNames (h : ∀ n ∈ names, IsName n) :
    names.length ≤ (joinNames names).length := by
  induction names with
  | nil => simp
  | cons n names ih =>
    have hn : 1 ≤ n.length := List.length_pos_iff.mpr (h n List.mem_cons_self).1
    by_cases hne : names = []
    · subst hne
      simpa using hn
    · have := ih fun m hm => h m (List.mem_cons_of_mem _ hm)
      rw [joinNames_cons n hne, List.length_append, List.length_cons, List.length_cons]
      omega

lemma splitHead_joinNames (h : ∀ n ∈ names, IsName n) :
    splitHead ⟨joinNames names⟩ = ([], joinNames names) := by
  have habs : isAbsolute ⟨joinNames names⟩ = false := decide_eq_false (head?_joinNames h)
  have hdot : startsWithDot ⟨joinNames names⟩ = false := by
    refine decide_eq_false ?_
    by_cases hne : names = []
    · subst hne
      decide
    · rw [parts, splitOn_joinNames (fun n hn => (h n hn).2.1) hne]
      intro hhead
      exact (h [dot] (List.mem_of_mem_head? hhead)).2.2.1 rfl
  rw [splitHead, if_neg (by simp [habs, hdot])]

lemma parent?_joinNames_nil : parent? ⟨joinNames []⟩ = none := by decide

lemma parent?_joinNames (h : ∀ n ∈ names ++ [name], IsName n) :
    parent? ⟨joinNames (names ++ [name])⟩ = some ⟨joinNames names⟩ := by
  have hsplit : (joinNames (names ++ [name])).splitOn slash = names ++ [name] :=
    splitOn_joinNames (fun n hn => (h n hn).2.1) (by simp)
  have hfront : ∀ n ∈ names, IsName n := fun n hn => h n (List.mem_append_left _ hn)
  obtain ⟨m, ms, hm⟩ := List.exists_cons_of_ne_nil (show names ++ [name] ≠ [] by simp)
  have hdrop : (m :: ms).dropLast = names := by rw [← hm, List.dropLast_concat]
  simp only [parent?, splitHead_joinNames h, hsplit, trimParts_names h]
  rw [hm]
  simp only [hdrop, trimParts_names hfront, List.nil_append]

/-- Paths of which each goes up to that of the names without the last. -/
structure GoesUp (f : List Bytes → Path) : Prop where
  nil : (f []).parent? = none
  concat : ∀ {names name}, (∀ n ∈ names ++ [name], IsName n) →
    (f (names ++ [name])).parent? = some (f names)
  length : ∀ {names}, (∀ n ∈ names, IsName n) → names.length ≤ (f names).bytes.length

/-- More steps up than there are names change nothing. -/
lemma GoesUp.parentsUpTo_eq {f : List Bytes → Path} (hf : GoesUp f) {k : Nat}
    (h : ∀ n ∈ names, IsName n) (hk : names.length ≤ k) :
    parentsUpTo (k + 1) (f names) = parentsUpTo (names.length + 1) (f names) := by
  induction names using List.reverseRecOn generalizing k with
  | nil => simp only [parentsUpTo, hf.nil]
  | append_singleton names name ih =>
    rw [List.length_append, List.length_singleton] at hk ⊢
    rcases k with _ | k
    · omega
    · have hfront : ∀ n ∈ names, IsName n := fun n hn => h n (List.mem_append_left _ hn)
      rw [parentsUpTo, parentsUpTo, hf.concat h]
      simp only
      rw [ih hfront (Nat.le_of_succ_le_succ hk)]

/-- **The parents of a path**: the path without its last name, and the parents of that. -/
theorem GoesUp.parents_concat {f : List Bytes → Path} (hf : GoesUp f)
    (h : ∀ n ∈ names ++ [name], IsName n) :
    parents (f (names ++ [name])) = f names :: parents (f names) := by
  have hfront : ∀ n ∈ names, IsName n := fun n hn => h n (List.mem_append_left _ hn)
  have hlength := hf.length h
  rw [List.length_append, List.length_singleton] at hlength
  obtain ⟨k, hk⟩ := Nat.exists_eq_add_of_le' (Nat.le_trans (Nat.le_add_left 1 _) hlength)
  simp only [parents, hk]
  rw [parentsUpTo, hf.concat h]
  simp only
  rw [hf.parentsUpTo_eq hfront (by omega), ← hf.parentsUpTo_eq hfront (hf.length hfront)]

lemma goesUp_joinNames : GoesUp fun names => ⟨joinNames names⟩ where
  nil := parent?_joinNames_nil
  concat := parent?_joinNames
  length := length_le_joinNames

lemma goesUp_ofNames : GoesUp (ofNames true) where
  nil := parent?_ofNames_nil
  concat := parent?_ofNames
  length h := Nat.le_trans (length_le_joinNames h) (by simp [ofNames])

/-- The parents of a name below a base. -/
theorem parents_joinNames (h : ∀ n ∈ names ++ [name], IsName n) :
    parents ⟨joinNames (names ++ [name])⟩ = ⟨joinNames names⟩ :: parents ⟨joinNames names⟩ :=
  goesUp_joinNames.parents_concat h

lemma parents_joinNames_nil : parents ⟨joinNames []⟩ = [] := by decide

/-! ### Inside the working directory -/

lemma resolveWithin_spec {workingDir p q : Path} (hw : workingDir.IsNormal)
    (h : resolveWithin workingDir p = some q) :
    q.IsNormal ∧ q.startsWith workingDir = true := by
  simp only [resolveWithin] at h
  split at h
  · next hstart =>
    obtain rfl := Option.some.inj h
    exact ⟨isNormal_normalize (isAbsolute_join hw.isAbsolute), hstart⟩
  · simp at h

end DeployClient.Path
