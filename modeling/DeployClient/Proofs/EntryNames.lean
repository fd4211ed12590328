import DeployClient.Path.Naming
import DeployClient.Proofs.PathNames

/-!
The names that entries get in an archive.

They are the names of a path below the base, joined by slashes. Paths in normal form below one
base can be told apart by them.
-/

namespace DeployClient.Path

open DeployClient.Bytes (slash dot)

variable {names others : List Bytes} {name : Bytes}

/-! ### Below a base -/

lemma isPrefixOf?_eq_some_iff {α : Type} [BEq α] [LawfulBEq α] {l m r : List α} :
    l.isPrefixOf? m = some r ↔ m = l ++ r := by
  induction l generalizing m with
  | nil => simp [List.isPrefixOf?]
  | cons x l ih =>
    rcases m with _ | ⟨y, m⟩
    · simp [List.isPrefixOf?]
    · by_cases hxy : x = y
      · simp [List.isPrefixOf?, hxy, ih]
      · simp [List.isPrefixOf?, hxy, Ne.symm hxy]

/-- A path below a base, as the names of both. -/
structure Below (base p : Path) (bs rest : List Bytes) : Prop where
  base : base = ofNames true bs
  path : p = ofNames true (bs ++ rest)
  isName : ∀ n ∈ bs ++ rest, IsName n

lemma Below.below? {base p : Path} {bs rest : List Bytes} (h : Below base p bs rest) :
    below? base p = some (rest.map .normal) := by
  rw [Path.below?, isPrefixOf?_eq_some_iff, h.base, h.path, components_ofNames h.isName,
    components_ofNames fun n hn => h.isName n (List.mem_append_left _ hn)]
  simp

lemma below_of_startsWith {base p : Path} (hb : base.IsNormal) (hp : p.IsNormal)
    (h : p.startsWith base = true) : ∃ bs rest, Below base p bs rest := by
  obtain ⟨bs, rfl, hbs⟩ := hb
  obtain ⟨ps, rfl, hps⟩ := hp
  rw [startsWith_iff, components_ofNames hbs, components_ofNames hps] at h
  obtain ⟨rest, hrest⟩ := h
  rw [List.cons_append, List.cons_inj_right] at hrest
  obtain ⟨b', r', hps', hb', hr'⟩ := List.map_eq_append_iff.mp hrest.symm
  obtain rfl := map_normal_injective hb'
  exact ⟨b', r', rfl, by rw [hps'], by rwa [← hps']⟩

lemma nameBelow_of_below {base p : Path} {bs rest : List Bytes} (h : Below base p bs rest) :
    nameBelow base p = if rest.all fun n => (Bytes.toText? n).isSome then .named (nameOf rest)
      else .notUnicode := by
  have hnames : (rest.map Component.normal).filterMap Component.name? = rest := by
    rw [List.filterMap_map]
    exact List.filterMap_some
  rw [nameBelow, h.below?]
  simp only [hnames]

lemma nameBelow_ne_outside {base p : Path} (h : p.startsWith base = true) :
    nameBelow base p ≠ .outside := by
  obtain ⟨rest, hrest⟩ := startsWith_iff.mp h
  have hbelow : below? base p = some rest := isPrefixOf?_eq_some_iff.mpr hrest.symm
  rw [nameBelow, hbelow]
  simp only
  split <;> simp

/-- The names among the components are some of the parts between the slashes. -/
lemma sublist_of_parts (parts : List Bytes) :
    ((parts.filterMap Component.ofPart).filterMap Component.name?).Sublist parts := by
  induction parts with
  | nil => exact List.Sublist.slnil
  | cons part parts ih =>
    rcases hof : Component.ofPart part with _ | c
    · rw [List.filterMap_cons_none hof]
      exact ih.cons _
    · rw [List.filterMap_cons_some hof]
      cases c with
      | normal m =>
        obtain ⟨rfl, -⟩ := ofPart_eq_normal_iff.mp hof
        rw [List.filterMap_cons_some (show Component.name? (.normal part) = some part from rfl)]
        exact ih.cons_cons _
      | _ =>
        rw [List.filterMap_cons_none rfl]
        exact ih.cons _

lemma sublist_of_components (p : Path) :
    (p.components.filterMap Component.name?).Sublist p.parts := by
  unfold components
  split
  · exact sublist_of_parts _
  · split <;> exact sublist_of_parts _

/-- The name of any path is made of parts of its text. -/
lemma exists_parts_of_named {base p : Path} {n : Bytes} (h : nameBelow base p = .named n) :
    ∃ l : List Bytes, l.Sublist p.parts ∧ n = nameOf l := by
  rcases hcs : Path.below? base p with _ | cs
  · simp [nameBelow, hcs] at h
  · have hsuffix : cs.Sublist p.components := by
      rw [isPrefixOf?_eq_some_iff.mp hcs]
      exact List.sublist_append_right _ _
    simp only [nameBelow, hcs] at h
    split at h
    · exact ⟨_, (hsuffix.filterMap _).trans (sublist_of_components p), (Naming.named.inj h).symm⟩
    · simp at h

lemma length_of_named {base p : Path} {n : Bytes} (h : nameBelow base p = .named n) :
    n.length ≤ max 1 p.bytes.length := by
  obtain ⟨l, hl, rfl⟩ := exists_parts_of_named h
  unfold nameOf
  split
  · exact Nat.le_max_left _ _
  · have hle := length_joinNames_le hl
    rw [parts, joinNames_splitOn] at hle
    omega

/-- Where a path holds no NUL, its name holds none. -/
lemma notMem_of_named {base p : Path} {n : Bytes} (h : nameBelow base p = .named n)
    (hp : 0 ∉ p.bytes) : 0 ∉ n := by
  obtain ⟨l, hl, rfl⟩ := exists_parts_of_named h
  unfold nameOf
  split
  · decide
  · intro h0
    rcases mem_joinNames h0 with h0 | ⟨part, hpart, h0⟩
    · exact absurd h0 (by decide)
    · exact hp (mem_of_mem_splitOn (hl.subset hpart) h0)

lemma Below.of_named {base p : Path} {n : Bytes} (hb : base.IsNormal) (hp : p.IsNormal)
    (h : nameBelow base p = .named n) : ∃ bs rest, Below base p bs rest ∧ n = nameOf rest := by
  rcases hcs : Path.below? base p with _ | cs
  · simp [nameBelow, hcs] at h
  · have hstart : p.startsWith base = true :=
      startsWith_iff.mpr ⟨cs, (isPrefixOf?_eq_some_iff.mp hcs).symm⟩
    obtain ⟨bs, rest, hbelow⟩ := below_of_startsWith hb hp hstart
    rw [nameBelow_of_below hbelow] at h
    split at h
    · exact ⟨bs, rest, hbelow, (Naming.named.inj h).symm⟩
    · simp at h

/-- A name below a base in two stages: that of a directory on the way, and the name below it. -/
lemma exists_stages {base middle p : Path} {n : Bytes} (hb : base.IsNormal) (hm : middle.IsNormal)
    (hp : p.IsNormal) (hmiddle : middle.startsWith base = true)
    (hlower : p.startsWith middle = true)
    (h : nameBelow base p = .named n) :
    ∃ bs front rest, Below base middle bs front ∧ Below middle p (bs ++ front) rest
      ∧ n = nameOf (front ++ rest) ∧ nameBelow base middle = .named (nameOf front)
      ∧ nameBelow middle p = .named (nameOf rest) := by
  obtain ⟨bs, front, hfront⟩ := below_of_startsWith hb hm hmiddle
  obtain ⟨bs', rest, hrest⟩ := below_of_startsWith hm hp hlower
  obtain rfl : bs' = bs ++ front := ofNames_injective
    (fun n hn => hrest.isName n (List.mem_append_left _ hn)) hfront.isName
    (hrest.base.symm.trans hfront.path)
  have hall : Below base p bs (front ++ rest) :=
    ⟨hfront.base, by rw [hrest.path, List.append_assoc], by simpa using hrest.isName⟩
  rw [nameBelow_of_below hall] at h
  split at h
  · next htext =>
    rw [List.all_append, Bool.and_eq_true] at htext
    exact ⟨bs, front, rest, hfront, hrest, (Naming.named.inj h).symm,
      by rw [nameBelow_of_below hfront, if_pos htext.1],
      by rw [nameBelow_of_below hrest, if_pos htext.2]⟩
  · simp at h

lemma nameOf_of_ne_nil (h : names ≠ []) : nameOf names = joinNames names := by
  rw [nameOf, if_neg (by simpa using h)]

lemma not_isName_baseName : ¬ IsName baseName := by decide

lemma nameOf_injective (h : ∀ n ∈ names, IsName n) (h' : ∀ n ∈ others, IsName n)
    (he : nameOf names = nameOf others) : names = others := by
  -- the name of the base is no joined name
  have hbase : ∀ l : List Bytes, l ≠ [] → (∀ n ∈ l, IsName n) → joinNames l ≠ baseName := by
    intro l hl hn e
    have hsplit := splitOn_joinNames (fun n hm => (hn n hm).2.1) hl
    rw [e, show baseName.splitOn slash = [baseName] by decide] at hsplit
    exact not_isName_baseName (hn baseName (hsplit ▸ List.mem_singleton_self _))
  rcases names with _ | ⟨m, ms⟩ <;> rcases others with _ | ⟨o, os⟩
  · rfl
  · exact absurd he.symm (hbase _ (by simp) h')
  · exact absurd he (hbase _ (by simp) h)
  · exact joinNames_injective h h' he

lemma nameOf_eq_baseName_iff (h : ∀ n ∈ names, IsName n) :
    nameOf names = baseName ↔ names = [] :=
  ⟨fun he => nameOf_injective h (by simp) he, fun he => he ▸ rfl⟩

/-- **Below one base, a name belongs to one path.** -/
lemma eq_of_nameBelow_eq {base p q : Path} {n : Bytes} (hb : base.IsNormal) (hp : p.IsNormal)
    (hq : q.IsNormal) (h : nameBelow base p = .named n) (h' : nameBelow base q = .named n) :
    p = q := by
  obtain ⟨bs, rest, hbelow, hn⟩ := Below.of_named hb hp h
  obtain ⟨bs', rest', hbelow', hn'⟩ := Below.of_named hb hq h'
  have hbs : bs = bs' := ofNames_injective
    (fun n hm => hbelow.isName n (List.mem_append_left _ hm))
    (fun n hm => hbelow'.isName n (List.mem_append_left _ hm))
    (hbelow.base.symm.trans hbelow'.base)
  have hrest : rest = rest' := nameOf_injective
    (fun n hm => hbelow.isName n (List.mem_append_right _ hm))
    (fun n hm => hbelow'.isName n (List.mem_append_right _ hm)) (hn.symm.trans hn')
  rw [hbelow.path, hbelow'.path, hbs, hrest]

lemma lastPart_nameOf (h : ∀ n ∈ names ++ [name], IsName n) :
    lastPart (nameOf (names ++ [name])) = name := by
  have hne : names ++ [name] ≠ [] := by simp
  rw [lastPart, nameOf, if_neg (by simp), splitOn_joinNames (fun n hn => (h n hn).2.1) hne]
  simp

/-- Only the base goes by its own name, also where names are cut to their last part. -/
lemma lastPart_nameOf_eq_baseName_iff (h : ∀ n ∈ names, IsName n) :
    lastPart (nameOf names) = baseName ↔ names = [] := by
  rcases List.eq_nil_or_concat names with rfl | ⟨front, last, rfl⟩
  · simp [nameOf, show lastPart baseName = baseName by decide]
  · rw [List.concat_eq_append] at h ⊢
    rw [lastPart_nameOf h]
    constructor
    · rintro rfl
      exact absurd (h baseName (by simp)) not_isName_baseName
    · simp

end DeployClient.Path
