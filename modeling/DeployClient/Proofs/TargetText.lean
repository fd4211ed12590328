import DeployClient.Proofs.TarStream

/-!
How the target of a link is spelled in a header.

A target is written component by component. The parts that stand for no component are lost on
the way: what is between two slashes that follow each other, and a dot that is not the first
part. What is left leads to the same place, and is the target itself if it has no such part.
-/

namespace DeployClient.Tar

open DeployClient.Path (Component joinNames)
open Bytes (slash dot)

variable {t first : Bytes} {rest : List Bytes}

/-! ### What is kept of a target -/

/-- The part stands for a component. -/
def stands (part : Bytes) : Bool := (Component.ofPart part).isSome

lemma stands_iff {part : Bytes} : stands part = true ↔ part ≠ [] ∧ part ≠ [dot] := by
  unfold stands Component.ofPart
  split
  · next h => simp [not_and_or.mpr (h.imp not_not_intro not_not_intro)]
  · next h => split <;> simpa using not_or.mp h

/-- What is left of the parts after the first one. A slash at the end stays. -/
def keptParts (rest : List Bytes) : List Bytes :=
  rest.filter stands ++ if rest.getLast? = some [] then [[]] else []

/-- No part after the first one is lost. -/
def KeepsAll (rest : List Bytes) : Prop :=
  (∀ part ∈ rest.dropLast, part ≠ [] ∧ part ≠ [dot]) ∧ rest.getLast? ≠ some [dot]

instance (rest : List Bytes) : Decidable (KeepsAll rest) := by
  unfold KeepsAll
  infer_instance

lemma keptParts_eq_self_iff : keptParts rest = rest ↔ KeepsAll rest := by
  rcases List.eq_nil_or_concat rest with rfl | ⟨middle, last, rfl⟩
  · simp [keptParts, KeepsAll]
  · have hmiddle : middle.filter stands = middle ↔ ∀ part ∈ middle, part ≠ [] ∧ part ≠ [dot] := by
      simp only [List.filter_eq_self, stands_iff]
    simp only [List.concat_eq_append, keptParts, KeepsAll, List.filter_append,
      List.getLast?_concat, List.dropLast_concat, Option.some.injEq]
    by_cases hnil : last = []
    · have hlost : [last].filter stands = [] := by simp [stands_iff, hnil]
      rw [hlost, hnil, if_pos rfl, List.append_nil, List.append_left_inj, hmiddle]
      simp
    · rw [if_neg hnil, List.append_nil]
      by_cases hdot : last = [dot]
      · have hlost : [last].filter stands = [] := by simp [stands_iff, hdot]
        rw [hlost, List.append_nil]
        refine iff_of_false (fun h => ?_) fun h => h.2 (congrArg some hdot)
        have hlength := congrArg List.length h
        have hle := List.length_filter_le stands middle
        rw [List.length_append, List.length_singleton] at hlength
        omega
      · have hkept : [last].filter stands = [last] := by simp [stands_iff, hnil, hdot]
        rw [hkept, List.append_left_inj, hmiddle]
        simp [hdot]

lemma slash_notMem_keptParts (h : ∀ part ∈ rest, slash ∉ part) :
    ∀ part ∈ keptParts rest, slash ∉ part := by
  intro part hpart
  rcases List.mem_append.mp hpart with hpart | hpart
  · exact h part (List.mem_of_mem_filter hpart)
  · split at hpart
    · rw [List.mem_singleton.mp hpart]
      simp
    · simp at hpart

lemma filterMap_keptParts (rest : List Bytes) :
    (keptParts rest).filterMap Component.ofPart = rest.filterMap Component.ofPart := by
  have hkept : (rest.filter stands).filterMap Component.ofPart
      = rest.filterMap Component.ofPart := by
    rw [List.filterMap_filter]
    refine List.filterMap_congr fun part _ => ?_
    unfold stands
    cases Component.ofPart part <;> rfl
  rw [keptParts, List.filterMap_append, hkept]
  split <;> simp [Component.ofPart]

/-! ### The parts of a path -/

lemma parts_slash (b : Bytes) : (slash :: b).splitOn slash = [] :: b.splitOn slash := by
  simp [List.splitOn_cons_eq_if_modifyHead]

lemma isAbsolute_iff (h : t.splitOn slash = first :: rest) :
    (⟨t⟩ : Path).isAbsolute = true ↔ first = [] ∧ rest ≠ [] := by
  have ht := Path.joinNames_splitOn t
  rw [h] at ht
  rw [Path.isAbsolute, decide_eq_true_eq]
  have hslash : slash ∉ first := Path.slash_notMem_of_mem_splitOn (h ▸ List.mem_cons_self)
  constructor
  · intro hhead
    obtain ⟨b, hb⟩ := List.head?_eq_some_iff.mp hhead
    rw [show t = slash :: b from hb, parts_slash] at h
    obtain ⟨rfl, rfl⟩ := List.cons.inj h
    exact ⟨rfl, List.splitOn_ne_nil _ _⟩
  · rintro ⟨rfl, hne⟩
    show t.head? = some slash
    rw [← ht, Path.joinNames_cons [] hne]
    rfl

lemma exists_slash_of_absolute (h : t.splitOn slash = first :: rest)
    (habs : first = [] ∧ rest ≠ []) : ∃ b, t = slash :: b ∧ b.splitOn slash = rest := by
  obtain ⟨b, rfl⟩ : ∃ b, t = slash :: b :=
    List.head?_eq_some_iff.mp (of_decide_eq_true ((isAbsolute_iff h).mpr habs))
  exact ⟨b, rfl, (List.cons.inj ((parts_slash b).symm.trans h)).2⟩

lemma slash_notMem_cons_keptParts (h : t.splitOn slash = first :: rest) :
    ∀ part ∈ first :: keptParts rest, slash ∉ part := by
  have hparts : ∀ part ∈ first :: rest, slash ∉ part := fun _ hpart =>
    Path.slash_notMem_of_mem_splitOn (h ▸ hpart)
  intro part hpart
  rcases List.mem_cons.mp hpart with rfl | hpart
  · exact hparts _ List.mem_cons_self
  · exact slash_notMem_keptParts (fun _ hmem => hparts _ (List.mem_cons_of_mem _ hmem)) part hpart

/-- Equal parts without a slash: texts are told apart by their parts. -/
lemma joinNames_inj {ps qs : List Bytes} (hp : ∀ part ∈ ps, slash ∉ part)
    (hq : ∀ part ∈ qs, slash ∉ part) (hp' : ps ≠ []) (hq' : qs ≠ []) :
    joinNames ps = joinNames qs ↔ ps = qs := by
  refine ⟨fun h => ?_, fun h => h ▸ rfl⟩
  rw [← Path.splitOn_joinNames hp hp', h, Path.splitOn_joinNames hq hq']

lemma components_eq (h : t.splitOn slash = first :: rest) :
    (⟨t⟩ : Path).components
      = (if first = [] ∧ rest ≠ [] then [.root] else if first = [dot] then [.current] else [])
        ++ (first :: rest).filterMap Component.ofPart := by
  have hdot : (⟨t⟩ : Path).startsWithDot = decide (first = [dot]) := by
    simp [Path.startsWithDot, Path.parts, h]
  have hinner : (⟨t⟩ : Path).innerComponents = (first :: rest).filterMap Component.ofPart := by
    rw [Path.innerComponents, Path.parts, h]
  rw [Path.components, hdot, hinner]
  by_cases habs : first = [] ∧ rest ≠ []
  · rw [if_pos ((isAbsolute_iff h).mpr habs), if_pos habs]
    rfl
  · rw [if_neg fun hi => habs ((isAbsolute_iff h).mp hi), if_neg habs]
    by_cases hd : first = [dot] <;> simp [hd]

/-! ### Targets spelled anew -/

/-- What a slash at the end of a target adds to its pieces. -/
def endSlash (t : Bytes) : Bytes := if t.getLast? = some slash then [slash] else []

lemma flatten_endPieces (t : Bytes) :
    (if t.getLast? = some slash then [[slash]] else [] : List Bytes).flatten = endSlash t := by
  unfold endSlash
  split <;> rfl

lemma flatten_pieces_after {cs : List Component} (h : .root ∉ cs) (hne : cs ≠ []) :
    (linkPieces.pieces t true cs).flatten
      = slash :: joinNames (cs.map componentText) ++ endSlash t := by
  induction cs with
  | nil => exact absurd rfl hne
  | cons c cs ih =>
    have hc : (c != .root) = true := by
      rw [bne_iff_ne]
      rintro rfl
      exact h List.mem_cons_self
    rw [linkPieces.pieces, hc]
    by_cases hcs : cs = []
    · subst hcs
      simp [linkPieces.pieces, flatten_endPieces]
    · have hrest := ih (fun hmem => h (List.mem_cons_of_mem _ hmem)) hcs
      have hmap : cs.map componentText ≠ [] := by simpa using hcs
      simp [hrest, Path.joinNames_cons _ hmap]

lemma flatten_pieces {cs : List Component} (h : .root ∉ cs) :
    (linkPieces.pieces t false cs).flatten = joinNames (cs.map componentText) ++ endSlash t := by
  rcases cs with _ | ⟨c, cs⟩
  · simp [linkPieces.pieces, flatten_endPieces]
  · have hc : (c != .root) = true := by
      rw [bne_iff_ne]
      rintro rfl
      exact h List.mem_cons_self
    rw [linkPieces.pieces, hc]
    by_cases hcs : cs = []
    · subst hcs
      simp [linkPieces.pieces, flatten_endPieces]
    · have hrest := flatten_pieces_after (t := t) (fun hmem => h (List.mem_cons_of_mem _ hmem)) hcs
      have hmap : cs.map componentText ≠ [] := by simpa using hcs
      simp [hrest, Path.joinNames_cons _ hmap]

lemma root_notMem_filterMap (parts : List Bytes) : .root ∉ parts.filterMap Component.ofPart := by
  intro h
  obtain ⟨part, -, hpart⟩ := List.mem_filterMap.mp h
  have htext := componentText_of_ofPart hpart
  rw [← htext] at hpart
  simp [componentText, Component.ofPart, slash, dot] at hpart

lemma map_componentText_parts (parts : List Bytes) :
    (parts.filterMap Component.ofPart).map componentText = parts.filter stands :=
  map_componentText_filterMap parts

lemma endSlash_eq (h : t.splitOn slash = first :: rest) :
    endSlash t = if rest.getLast? = some [] then [slash] else [] := by
  have hparts : ∀ part ∈ first :: rest, slash ∉ part := fun part hpart =>
    Path.slash_notMem_of_mem_splitOn (h ▸ hpart)
  have ht : t = joinNames (first :: rest) := by rw [← h, Path.joinNames_splitOn]
  have hends : t.getLast? = some slash ↔ rest.getLast? = some [] := by
    rcases List.eq_nil_or_concat rest with rfl | ⟨middle, last, rfl⟩
    · rw [Path.joinNames_singleton] at ht
      refine iff_of_false (fun hlast => ?_) (by simp)
      exact hparts first List.mem_cons_self (ht ▸ List.mem_of_getLast? hlast)
    · rw [List.concat_eq_append, ← List.cons_append,
        Path.joinNames_append_singleton (List.cons_ne_nil first middle)] at ht
      rw [ht, List.concat_eq_append, List.getLast?_concat, List.getLast?_append]
      rcases List.eq_nil_or_concat last with rfl | ⟨b, x, rfl⟩
      · simp
      · have hx : x ≠ slash := by
          rintro rfl
          exact hparts (b.concat slash) (by simp) (by simp)
        rw [List.concat_eq_append, ← List.cons_append, List.getLast?_concat]
        simp [hx]
  simp only [endSlash, hends]

/-- The parts of a target that are not kept are left out, each with a slash. -/
lemma linkText_of_relative (h : t.splitOn slash = first :: rest)
    (hrel : ¬ (first = [] ∧ rest ≠ [])) : linkText t = joinNames (first :: keptParts rest) := by
  by_cases hnil : first = []
  · -- only the empty text begins with an empty part and is relative
    obtain rfl : rest = [] := by
      by_contra hne
      exact hrel ⟨hnil, hne⟩
    have ht := Path.joinNames_splitOn t
    rw [h, hnil, Path.joinNames_singleton] at ht
    rw [← ht, hnil]
    rfl
  · have htexts : (⟨t⟩ : Path).components.map componentText = first :: rest.filter stands := by
      rw [components_eq h, if_neg hrel, List.map_append, map_componentText_parts]
      by_cases hdot : first = [dot]
      · simp [hdot, componentText, stands_iff]
      · simp [hdot, stands_iff, hnil]
    have hroot : .root ∉ (⟨t⟩ : Path).components := by
      rw [components_eq h, if_neg hrel, List.mem_append, not_or]
      refine ⟨?_, root_notMem_filterMap _⟩
      split <;> simp
    rw [linkText, linkPieces, flatten_pieces hroot, htexts, endSlash_eq h, keptParts]
    split
    · rw [← List.cons_append, Path.joinNames_append_singleton (List.cons_ne_nil _ _)]
    · rw [List.append_nil, List.append_nil]

/-- After the root there is no slash to leave out, so the root alone gets a second one. -/
lemma linkText_slash (b : Bytes) :
    linkText (slash :: b) = if keptParts (b.splitOn slash) = [[]] then [slash, slash]
      else slash :: joinNames (keptParts (b.splitOn slash)) := by
  have h := parts_slash b
  have hcomponents : (⟨slash :: b⟩ : Path).components
      = .root :: (b.splitOn slash).filterMap Component.ofPart := by
    rw [components_eq h, if_pos ⟨rfl, List.splitOn_ne_nil _ _⟩]
    rfl
  have hnext : (Component.root != Component.root) = false := by simp
  rw [linkText, linkPieces, hcomponents, linkPieces.pieces, hnext]
  simp only [Bool.false_eq_true, if_false, List.flatten_cons]
  rw [flatten_pieces (root_notMem_filterMap _), map_componentText_parts, endSlash_eq h]
  unfold keptParts
  by_cases hempty : (b.splitOn slash).filter stands = []
  · rw [hempty]
    by_cases hend : (b.splitOn slash).getLast? = some [] <;> simp [hend, componentText]
  · by_cases hend : (b.splitOn slash).getLast? = some []
    · have hne : (b.splitOn slash).filter stands ++ [[]] ≠ [[]] := by simpa using hempty
      rw [if_pos hend, if_pos hend, if_neg hne, Path.joinNames_append_singleton hempty]
      rfl
    · have hne : (b.splitOn slash).filter stands ≠ [[]] := by
        intro hnil
        have hmem : [] ∈ (b.splitOn slash).filter stands := hnil ▸ List.mem_singleton_self _
        exact (stands_iff.mp (List.of_mem_filter hmem)).1 rfl
      rw [if_neg hend, if_neg hend, List.append_nil, List.append_nil, if_neg hne]
      rfl

/-- The target has no part that is lost when it is spelled anew. -/
def IsPlain (t : Bytes) : Prop :=
  t = [slash, slash] ∨ t ≠ [slash] ∧ KeepsAll (t.splitOn slash).tail

instance (t : Bytes) : Decidable (IsPlain t) := by
  unfold IsPlain
  infer_instance

lemma isPlain_of_relative (h : t.splitOn slash = first :: rest)
    (hrel : ¬ (first = [] ∧ rest ≠ [])) : IsPlain t ↔ KeepsAll rest := by
  have hhead : ∀ b, t ≠ slash :: b := by
    rintro b rfl
    rw [parts_slash] at h
    obtain ⟨rfl, rfl⟩ := List.cons.inj h
    exact hrel ⟨rfl, List.splitOn_ne_nil _ _⟩
  simp [IsPlain, h, hhead]

lemma linkText_slash_eq_self_iff (b : Bytes) :
    linkText (slash :: b) = slash :: b ↔ IsPlain (slash :: b) := by
  have hparts : ∀ part ∈ b.splitOn slash, slash ∉ part :=
    fun _ => Path.slash_notMem_of_mem_splitOn
  have hb : joinNames (b.splitOn slash) = b := Path.joinNames_splitOn b
  have htail : ((slash :: b).splitOn slash).tail = b.splitOn slash := by rw [parts_slash]; rfl
  rw [linkText_slash, IsPlain, htail, ← keptParts_eq_self_iff]
  split
  · next hroot =>
    -- slashes and dots alone: two slashes are written, whatever stood there
    have hnot : ¬ (slash :: b ≠ [slash] ∧ keptParts (b.splitOn slash) = b.splitOn slash) := by
      rintro ⟨hne, hsame⟩
      rw [hroot] at hsame
      rw [← hb, ← hsame, Path.joinNames_singleton] at hne
      exact hne rfl
    rw [or_iff_left hnot, eq_comm]
  · next hroot =>
    have hbnil : b ≠ [] := by
      rintro rfl
      exact hroot (by decide)
    have hslashes : slash :: b ≠ [slash, slash] := by
      intro he
      obtain rfl : b = [slash] := (List.cons.inj he).2
      exact hroot (by decide)
    rw [or_iff_right hslashes, List.cons.injEq, and_iff_right rfl,
      and_iff_right fun he => hbnil (List.cons.inj he).2]
    constructor
    · intro he
      have hkept : keptParts (b.splitOn slash) ≠ [] := by
        intro hk
        rw [hk, Path.joinNames_nil] at he
        exact hbnil he.symm
      exact (joinNames_inj (slash_notMem_keptParts hparts) hparts hkept
        (List.splitOn_ne_nil _ _)).mp (he.trans hb.symm)
    · intro hsame
      rw [hsame, hb]

/-- **Targets without lost parts are spelled as they are**, and no others. -/
theorem linkText_eq_self_iff (t : Bytes) : linkText t = t ↔ IsPlain t := by
  obtain ⟨first, rest, h⟩ := List.exists_cons_of_ne_nil (List.splitOn_ne_nil slash t)
  by_cases habs : first = [] ∧ rest ≠ []
  · obtain ⟨b, rfl, -⟩ := exists_slash_of_absolute h habs
    exact linkText_slash_eq_self_iff b
  · have hparts : ∀ part ∈ first :: rest, slash ∉ part := fun _ hpart =>
      Path.slash_notMem_of_mem_splitOn (h ▸ hpart)
    have ht : t = joinNames (first :: rest) := by rw [← h, Path.joinNames_splitOn]
    rw [linkText_of_relative h habs, isPlain_of_relative h habs, ← keptParts_eq_self_iff, ht,
      joinNames_inj (slash_notMem_cons_keptParts h) hparts (List.cons_ne_nil _ _)
        (List.cons_ne_nil _ _)]
    simp

/-- **A target spelled anew has the components that it had.** -/
theorem components_linkText (t : Bytes) :
    (⟨linkText t⟩ : Path).components = (⟨t⟩ : Path).components := by
  obtain ⟨first, rest, h⟩ := List.exists_cons_of_ne_nil (List.splitOn_ne_nil slash t)
  have hkept := slash_notMem_cons_keptParts h
  by_cases habs : first = [] ∧ rest ≠ []
  · obtain ⟨b, rfl, rfl⟩ := exists_slash_of_absolute h habs
    -- the parts after the root are those that are kept, or nothing but empty ones
    have hsplit : ∃ parts, (linkText (slash :: b)).splitOn slash = [] :: parts ∧ parts ≠ []
        ∧ parts.filterMap Component.ofPart = (b.splitOn slash).filterMap Component.ofPart := by
      rw [linkText_slash]
      split
      · next hroot =>
        refine ⟨[[], []], by decide, by simp, ?_⟩
        rw [← filterMap_keptParts (b.splitOn slash), hroot]
        rfl
      · by_cases hnil : keptParts (b.splitOn slash) = []
        · refine ⟨[[]], by rw [hnil, parts_slash]; rfl, by simp, ?_⟩
          rw [← filterMap_keptParts (b.splitOn slash), hnil]
          rfl
        · refine ⟨keptParts (b.splitOn slash), ?_, hnil, filterMap_keptParts _⟩
          rw [parts_slash, Path.splitOn_joinNames (fun _ hmem =>
            hkept _ (List.mem_cons_of_mem _ hmem)) hnil]
    obtain ⟨parts, hparts', hne, hsame⟩ := hsplit
    rw [components_eq hparts', components_eq h, if_pos ⟨rfl, hne⟩, if_pos habs,
      List.filterMap_cons, List.filterMap_cons, hsame, habs.1]
  · have hsplit : (linkText t).splitOn slash = first :: keptParts rest := by
      rw [linkText_of_relative h habs, Path.splitOn_joinNames hkept (List.cons_ne_nil _ _)]
    have hrel : ¬ (first = [] ∧ keptParts rest ≠ []) := by
      rintro ⟨hnil, hne⟩
      refine hne ?_
      rw [not_and_not_right.mp habs hnil]
      rfl
    rw [components_eq hsplit, components_eq h, if_neg hrel, if_neg habs, List.filterMap_cons,
      List.filterMap_cons, filterMap_keptParts]

lemma mem_linkText {x : UInt8} (hx : x ∈ linkText t) : x = slash ∨ x ∈ t := by
  obtain ⟨first, rest, h⟩ := List.exists_cons_of_ne_nil (List.splitOn_ne_nil slash t)
  have hkept : ∀ part ∈ keptParts rest, x ∈ part → x ∈ t := by
    intro part hpart hxpart
    rcases List.mem_append.mp hpart with hpart | hpart
    · have hmem : part ∈ t.splitOn slash := by
        rw [h]
        exact List.mem_cons_of_mem _ (List.mem_of_mem_filter hpart)
      exact Path.mem_of_mem_splitOn hmem hxpart
    · split at hpart
      · rw [List.mem_singleton.mp hpart] at hxpart
        simp at hxpart
      · simp at hpart
  by_cases habs : first = [] ∧ rest ≠ []
  · obtain ⟨b, rfl, rfl⟩ := exists_slash_of_absolute h habs
    rw [linkText_slash] at hx
    split at hx
    · left
      simpa using hx
    · rcases List.mem_cons.mp hx with hx | hx
      · exact .inl hx
      · refine (Path.mem_joinNames hx).imp_right ?_
        rintro ⟨part, hpart, hxpart⟩
        exact hkept part hpart hxpart
  · rw [linkText_of_relative h habs] at hx
    refine (Path.mem_joinNames hx).imp_right ?_
    rintro ⟨part, hpart, hxpart⟩
    rcases List.mem_cons.mp hpart with rfl | hpart
    · exact Path.mem_of_mem_splitOn (h ▸ List.mem_cons_self) hxpart
    · exact hkept part hpart hxpart

/-! ### Targets in a stream -/

lemma fitting_eq_flatten {room : Nat} {pieces : List Bytes} (h : pieces.flatten.length ≤ room) :
    fitting room pieces = pieces.flatten := by
  induction pieces generalizing room with
  | nil => rfl
  | cons piece pieces ih =>
    rw [List.flatten_cons, List.length_append] at h
    rw [fitting, if_pos (by omega), ih (by omega), List.flatten_cons]

namespace Member

variable {m : Member}

/-- A target is spelled anew as long as that fits into the header. -/
lemma storedTarget_of_symlink (hk : m.kind = .symlink) (h0 : 0 ∉ m.target) :
    m.storedTarget
      = if (linkText m.target).length ≤ nameWidth then linkText m.target else m.target := by
  rw [storedTarget, if_neg (by simp [hk])]
  by_cases hle : (linkText m.target).length ≤ nameWidth
  · have hfits : linkField m.target = linkText m.target := fitting_eq_flatten hle
    have htext : 0 ∉ linkText m.target := by
      intro hmem
      rcases mem_linkText hmem with h | h
      · simp [slash] at h
      · exact h0 h
    rw [if_pos hle, if_pos hle, hfits, Header.textField_eq_self htext]
  · rw [if_neg hle, if_neg hle]

lemma storedTarget_eq_iff (hk : m.kind = .symlink) (h0 : 0 ∉ m.target) :
    m.storedTarget = m.target ↔ IsPlain m.target ∨ nameWidth < (linkText m.target).length := by
  rw [storedTarget_of_symlink hk h0]
  split
  · next hle => rw [linkText_eq_self_iff, or_iff_left (Nat.not_lt.mpr hle)]
  · next hle => exact iff_of_true rfl (.inr (Nat.not_le.mp hle))

lemma components_storedTarget (hk : m.kind = .symlink) (h0 : 0 ∉ m.target) :
    (⟨m.storedTarget⟩ : Path).components = (⟨m.target⟩ : Path).components := by
  rw [storedTarget_of_symlink hk h0]
  split
  · exact components_linkText m.target
  · rfl

end Member

end DeployClient.Tar
