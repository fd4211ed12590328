import DeployClient.ContainerFile
import DeployClient.Proofs.Lookup
import Mathlib.Data.List.TakeWhile

/-!
The directory that the text of a path tells: the text without its last part.

What is cut off is the name in the end and the parts before it that stand for nothing, so the
steps of the path are those of its directory, some dots, and the name.
-/

namespace DeployClient.Path

open FileSystem (steps Takes)
open Bytes (slash dot)

variable {parts init : List Bytes} {head last : Bytes} {p : Path}

/-! ### Trailing parts -/

lemma ofPart_eq_none_iff {part : Bytes} :
    Component.ofPart part = none ↔ part = [] ∨ part = [dot] := by
  unfold Component.ofPart
  split
  · next h => simp [h]
  · next h => split <;> simp [h]

/-- What is left out at the end are empty parts and dots. -/
lemma exists_trimParts (parts : List Bytes) :
    ∃ rest, parts = trimParts parts ++ rest ∧ ∀ part ∈ rest, part = [] ∨ part = [dot] := by
  refine ⟨(parts.reverse.takeWhile fun part => (Component.ofPart part).isNone).reverse, ?_, ?_⟩
  · rw [trimParts, ← List.reverse_append, List.takeWhile_append_dropWhile, List.reverse_reverse]
  · intro part hpart
    have hnone := List.mem_takeWhile_imp (List.mem_reverse.mp hpart)
    exact ofPart_eq_none_iff.mp (Option.isNone_iff_eq_none.mp hnone)

lemma filter_of_dots {rest : List Bytes} (h : ∀ part ∈ rest, part = [] ∨ part = [dot]) :
    ∃ m, rest.filter (· ≠ []) = List.replicate m [dot] := by
  refine ⟨(rest.filter (· ≠ [])).length, List.eq_replicate_of_mem fun part hpart => ?_⟩
  obtain ⟨hmem, hne⟩ := List.mem_filter.mp hpart
  exact (h part hmem).resolve_left (by simpa using hne)

/-- The steps of some parts are those of the parts that are kept, and dots. -/
lemma exists_filter_trimParts (parts : List Bytes) :
    ∃ m, parts.filter (· ≠ []) = (trimParts parts).filter (· ≠ []) ++ List.replicate m [dot] := by
  obtain ⟨rest, hparts, hrest⟩ := exists_trimParts parts
  obtain ⟨m, hm⟩ := filter_of_dots hrest
  refine ⟨m, ?_⟩
  rw [← hm, ← List.filter_append, ← hparts]

lemma trimParts_isPrefixOf (parts : List Bytes) : trimParts parts <+: parts := by
  obtain ⟨rest, hparts, -⟩ := exists_trimParts parts
  exact ⟨rest, hparts.symm⟩

/-- Parts that end with a name are all kept. -/
lemma trimParts_concat (h : IsName last) : trimParts (init ++ [last]) = init ++ [last] := by
  rw [trimParts, List.reverse_concat, List.dropWhile_cons_of_neg (by simp [ofPart_name h]),
    ← List.reverse_concat, List.reverse_reverse]

/-! ### Parents -/

lemma steps_eq (b : Bytes) : steps b = (b.splitOn slash).filter (· ≠ []) := rfl

lemma splitOn_eq_concat (b : Bytes) : ∃ init, b.splitOn slash = init ++ [lastPart b] := by
  have hne := List.splitOn_ne_nil slash b
  refine ⟨(b.splitOn slash).dropLast, ?_⟩
  rw [lastPart, List.getLastD_eq_getLast?, List.getLast?_eq_some_getLast hne, Option.getD_some,
    List.dropLast_append_getLast]

/-- What stands before the last name of a path: something in front that stays, and some parts. -/
structure Leads (p : Path) (head : Bytes) (init : List Bytes) : Prop where
  bytes : p.bytes = head ++ joinNames (init ++ [lastPart p.bytes])
  split : p.splitHead = (head, joinNames (init ++ [lastPart p.bytes]))
  parts : ∀ part ∈ init, slash ∉ part
  front : head = [slash]
    ∨ p.isAbsolute = false ∧ (head = [dot] ∧ (∃ inner, init = [] :: inner)
      ∨ head = [] ∧ init.head? ≠ some [])

/-- A text whose first part is neither empty nor holds a slash does not begin with one. -/
lemma isAbsolute_of_parts {first : Bytes} {rest : List Bytes}
    (h : p.bytes = joinNames (first :: rest)) (hne : first ≠ []) (hslash : slash ∉ first) :
    p.isAbsolute = false := by
  obtain ⟨x, xs, rfl⟩ := List.exists_cons_of_ne_nil hne
  have hx : p.bytes.head? = some x := by
    rw [h]
    rcases rest with _ | ⟨y, ys⟩
    · rfl
    · rw [joinNames_cons _ (by simp)]
      rfl
  refine decide_eq_false fun hhead => hslash ?_
  rw [hx] at hhead
  exact Option.some.inj hhead ▸ List.mem_cons_self

lemma splitHead_of_cons {x : UInt8} {body : Bytes} (h : p.bytes = x :: body)
    (hx : p.isAbsolute = true ∨ p.startsWithDot = true) : p.splitHead = ([x], body) := by
  rw [splitHead, if_pos (by simpa using hx), h]
  rfl

/-- The parts of a path are cut at its slashes, and joined they are the path. -/
lemma parts_of_splitOn (h : p.bytes.splitOn slash = parts) :
    (∀ part ∈ parts, slash ∉ part) ∧ p.bytes = joinNames parts := by
  rw [← h, joinNames_splitOn]
  exact ⟨fun part => slash_notMem_of_mem_splitOn, rfl⟩

/-- A path that begins with a part of its own has nothing in front. -/
lemma leads_of_plain (hsplit : p.bytes.splitOn slash = init ++ [lastPart p.bytes])
    {first : Bytes} (hfirst : (init ++ [lastPart p.bytes]).head? = some first) (hne : first ≠ [])
    (hdot : first ≠ [dot]) : Leads p [] init := by
  obtain ⟨hall, hbytes⟩ := parts_of_splitOn hsplit
  obtain ⟨inner, hinner⟩ := List.head?_eq_some_iff.mp hfirst
  have habs : p.isAbsolute = false := by
    rw [hinner] at hbytes hall
    exact isAbsolute_of_parts hbytes hne (hall first List.mem_cons_self)
  have hstart : p.startsWithDot = false := by
    refine decide_eq_false fun hhead => hdot ?_
    rw [Path.parts, hsplit, hfirst] at hhead
    exact Option.some.inj hhead
  refine ⟨hbytes, ?_, fun part hpart => hall part (List.mem_append_left _ hpart),
    .inr ⟨habs, .inr ⟨rfl, fun hempty => hne ?_⟩⟩⟩
  · rw [splitHead, if_neg (by simp [habs, hstart]), ← hbytes]
  · rw [List.head?_append, hempty] at hfirst
    exact (Option.some.inj hfirst).symm

lemma leads_of_slash (hsplit : p.bytes.splitOn slash = [] :: (init ++ [lastPart p.bytes])) :
    Leads p [slash] init := by
  obtain ⟨hall, hbytes⟩ := parts_of_splitOn hsplit
  have hjoin : p.bytes = slash :: joinNames (init ++ [lastPart p.bytes]) := by
    rw [joinNames_cons _ (by simp)] at hbytes
    exact hbytes
  have habs : p.isAbsolute = true := by
    rw [isAbsolute, hjoin]
    rfl
  exact ⟨hjoin, splitHead_of_cons hjoin (.inl habs),
    fun part hpart => hall part (List.mem_cons_of_mem _ (List.mem_append_left _ hpart)), .inl rfl⟩

lemma leads_of_dot (hsplit : p.bytes.splitOn slash = [dot] :: (init ++ [lastPart p.bytes])) :
    Leads p [dot] ([] :: init) := by
  obtain ⟨hall, hbytes⟩ := parts_of_splitOn hsplit
  have hjoin : p.bytes = dot :: joinNames (([] :: init) ++ [lastPart p.bytes]) := by
    rw [joinNames_cons _ (by simp)] at hbytes
    rw [List.cons_append, joinNames_cons _ (by simp)]
    exact hbytes
  have habs : p.isAbsolute = false := by
    rw [isAbsolute, hjoin]
    rfl
  have hstart : p.startsWithDot = true := by
    refine decide_eq_true ?_
    rw [Path.parts, hsplit]
    rfl
  refine ⟨hjoin, splitHead_of_cons hjoin (.inr hstart), ?_, .inr ⟨habs, .inl ⟨rfl, init, rfl⟩⟩⟩
  intro part hpart
  rcases List.mem_cons.mp hpart with rfl | hpart
  · simp
  · exact hall part (List.mem_cons_of_mem _ (List.mem_append_left _ hpart))

lemma exists_leads (h : IsName (lastPart p.bytes)) : ∃ head init, Leads p head init := by
  obtain ⟨init, hinit⟩ := splitOn_eq_concat p.bytes
  rcases init with _ | ⟨first, init⟩
  · exact ⟨[], [], leads_of_plain hinit rfl h.1 h.2.2.1⟩
  · by_cases hne : first = []
    · subst hne
      exact ⟨[slash], init, leads_of_slash hinit⟩
    · by_cases hdot : first = [dot]
      · subst hdot
        exact ⟨[dot], [] :: init, leads_of_dot hinit⟩
      · exact ⟨[], first :: init, leads_of_plain hinit rfl hne hdot⟩

lemma Leads.notMem (h : Leads p head init) (hlast : IsName (lastPart p.bytes)) :
    ∀ part ∈ init ++ [lastPart p.bytes], slash ∉ part := by
  intro part hpart
  rcases List.mem_append.mp hpart with hpart | hpart
  · exact h.parts part hpart
  · exact List.mem_singleton.mp hpart ▸ hlast.2.1

lemma Leads.notMem_kept (h : Leads p head init) : ∀ part ∈ trimParts init, slash ∉ part :=
  fun part hpart => h.parts part ((trimParts_isPrefixOf init).subset hpart)

/-- The parent of such a path. -/
lemma Leads.parent? (h : Leads p head init) (hlast : IsName (lastPart p.bytes)) :
    p.parent? = some ⟨head ++ joinNames (trimParts init)⟩ := by
  have hsplit : (joinNames (init ++ [lastPart p.bytes])).splitOn slash
      = init ++ [lastPart p.bytes] := splitOn_joinNames (h.notMem hlast) (by simp)
  obtain ⟨m, ms, hm⟩ := List.exists_cons_of_ne_nil
    (show init ++ [lastPart p.bytes] ≠ [] by simp)
  have hdrop : (m :: ms).dropLast = init := by rw [← hm, List.dropLast_concat]
  simp only [Path.parent?, h.split, hsplit, trimParts_concat hlast]
  rw [hm]
  simp only [hdrop]

lemma Leads.directoryOf (h : Leads p head init) (hlast : IsName (lastPart p.bytes)) :
    ContainerFile.directoryOf p = if head ++ joinNames (trimParts init) = []
      then ⟨baseName⟩ else ⟨head ++ joinNames (trimParts init)⟩ := by
  rw [ContainerFile.directoryOf, h.parent? hlast]

/-! ### Steps -/

/-- The parts of a text that is put together from its front and some parts. -/
lemma steps_joinNames (hparts : ∀ part ∈ parts, slash ∉ part) (hne : parts ≠ []) :
    steps (joinNames parts) = parts.filter (· ≠ []) := by
  rw [steps_eq, splitOn_joinNames hparts hne]

lemma steps_slash (b : Bytes) : steps (slash :: b) = steps b := by
  rw [steps_eq, List.splitOn_cons_eq_if_modifyHead, if_pos (by simp),
    List.filter_cons_of_neg (by simp), steps_eq]

lemma steps_slash_joinNames (hparts : ∀ part ∈ parts, slash ∉ part) :
    steps (slash :: joinNames parts) = parts.filter (· ≠ []) := by
  rw [steps_slash]
  by_cases hne : parts = []
  · rw [hne]
    rfl
  · exact steps_joinNames hparts hne

/-- Behind a dot in front stands a slash, if anything does. -/
lemma steps_dot_joinNames (hparts : ∀ part ∈ parts, slash ∉ part)
    (hfirst : ∀ first ∈ parts.head?, first = []) :
    steps (dot :: joinNames parts) = [dot] :: parts.filter (· ≠ []) := by
  rcases parts with _ | ⟨first, others⟩
  · decide
  · obtain rfl := hfirst first rfl
    have hsplit : (dot :: joinNames ([] :: others)).splitOn slash = [dot] :: others := by
      rw [List.splitOn_cons_eq_if_modifyHead, if_neg (by decide),
        splitOn_joinNames hparts (by simp)]
      rfl
    rw [steps_eq, hsplit, List.filter_cons_of_pos (by simp), List.filter_cons_of_neg (by simp)]

/-- The steps before a name are those of the parts that are kept, and dots. -/
lemma exists_filter_concat (init : List Bytes) (hlast : last ≠ []) :
    ∃ m, (init ++ [last]).filter (· ≠ [])
      = (trimParts init).filter (· ≠ []) ++ (List.replicate m [dot] ++ [last]) := by
  obtain ⟨m, hm⟩ := exists_filter_trimParts init
  refine ⟨m, ?_⟩
  rw [List.filter_append, hm, List.append_assoc, List.filter_cons_of_pos (by simpa using hlast),
    List.filter_nil]

lemma mem_head?_of_trimParts {first : Bytes} (h : first ∈ (trimParts parts).head?) :
    first ∈ parts.head? := by
  obtain ⟨rest, hrest⟩ := trimParts_isPrefixOf parts
  rw [← hrest]
  exact List.mem_head?_append_of_mem_head? h

/-! ### The directory -/

/-- The steps of a path and those of the directory that it tells. -/
structure Tells (p dir : Path) (name : Bytes) : Prop where
  steps : ∃ front m, steps p.bytes = front ++ (List.replicate m [dot] ++ [name])
    ∧ (steps dir.bytes = front ∨ front = [] ∧ steps dir.bytes = [[dot]])
  absolute : dir.isAbsolute = p.isAbsolute
  takes : Takes p → Takes dir

/-- A path that a system takes tells a directory that it takes. -/
lemma Leads.takes {dir : Path} (h : Leads p head init)
    (hdir : dir = ⟨head ++ joinNames (trimParts init)⟩) (hne : dir.bytes ≠ []) (hp : Takes p) :
    Takes dir := by
  have hsub : (trimParts init).Sublist (init ++ [lastPart p.bytes]) :=
    ((trimParts_isPrefixOf init).trans (List.prefix_append _ _)).sublist
  have hlength := hp.length
  have htext := hp.text
  rw [h.bytes] at hlength htext
  refine ⟨fun h0 => ?_, hne, ?_⟩
  · rw [hdir] at h0
    rcases List.mem_append.mp h0 with h0 | h0
    · exact htext (List.mem_append_left _ h0)
    · rcases mem_joinNames h0 with h0 | ⟨part, hpart, h0⟩
      · exact absurd h0 (by decide)
      · exact htext (List.mem_append_right _ (mem_joinNames_of_mem (hsub.subset hpart) h0))
  · have hle := length_joinNames_le hsub
    rw [hdir]
    rw [List.length_append] at hlength ⊢
    omega

/-- What is in front gives the same steps to the path and to the parts of it that are kept. -/
lemma Leads.tells (h : Leads p head init) (hlast : IsName (lastPart p.bytes)) (front : List Bytes)
    (hne : head ++ joinNames (trimParts init) ≠ [])
    (hpath : steps (head ++ joinNames (init ++ [lastPart p.bytes]))
      = front ++ (init ++ [lastPart p.bytes]).filter (· ≠ []))
    (hkept : steps (head ++ joinNames (trimParts init))
      = front ++ (trimParts init).filter (· ≠ []))
    (habs : isAbsolute ⟨head ++ joinNames (trimParts init)⟩ = p.isAbsolute) :
    Tells p (ContainerFile.directoryOf p) (lastPart p.bytes) := by
  have hdir := h.directoryOf hlast
  rw [if_neg hne] at hdir
  obtain ⟨m, hm⟩ := exists_filter_concat init hlast.1
  refine ⟨⟨front ++ (trimParts init).filter (· ≠ []), m, ?_, .inl (hdir ▸ hkept)⟩, hdir ▸ habs,
    h.takes hdir (hdir ▸ hne)⟩
  rw [List.append_assoc, ← hm, ← hpath, ← h.bytes]

lemma Leads.tells_of_slash (h : Leads p [slash] init) (hlast : IsName (lastPart p.bytes)) :
    Tells p (ContainerFile.directoryOf p) (lastPart p.bytes) := by
  refine h.tells hlast [] (by simp) (steps_slash_joinNames (h.notMem hlast))
    (steps_slash_joinNames h.notMem_kept) ?_
  rw [isAbsolute, isAbsolute, h.bytes]
  rfl

lemma Leads.tells_of_dot {inner : List Bytes} (h : Leads p [dot] ([] :: inner))
    (habs : p.isAbsolute = false) (hlast : IsName (lastPart p.bytes)) :
    Tells p (ContainerFile.directoryOf p) (lastPart p.bytes) := by
  have hfirst : ∀ first ∈ ([] :: inner).head?, first = ([] : Bytes) := by simp
  refine h.tells hlast [[dot]] (by simp) (steps_dot_joinNames (h.notMem hlast) hfirst)
    (steps_dot_joinNames h.notMem_kept fun first hkept => ?_) ?_
  · exact hfirst first (mem_head?_of_trimParts hkept)
  · rw [habs]
    rfl

/-- Without anything in front the directory may be left with no text, and is the current one. -/
lemma Leads.tells_of_base (h : Leads p [] init) (habs : p.isAbsolute = false)
    (hlast : IsName (lastPart p.bytes)) (hnil : joinNames (trimParts init) = []) :
    Tells p (ContainerFile.directoryOf p) (lastPart p.bytes) := by
  have hdir := h.directoryOf hlast
  rw [List.nil_append, if_pos hnil] at hdir
  have hnone : (trimParts init).filter (· ≠ []) = [] := by
    by_cases htrim : trimParts init = []
    · rw [htrim]
      rfl
    · rw [← steps_joinNames h.notMem_kept htrim, hnil]
      rfl
  obtain ⟨m, hm⟩ := exists_filter_concat init hlast.1
  rw [hnone] at hm
  have hsteps : steps p.bytes = [] ++ (List.replicate m [dot] ++ [lastPart p.bytes]) := by
    rw [← hm, ← steps_joinNames (h.notMem hlast) (by simp)]
    exact congrArg steps h.bytes
  rw [hdir]
  exact ⟨⟨[], m, hsteps, .inr ⟨rfl, by decide⟩⟩, by rw [habs]; rfl,
    fun _ => ⟨by decide, by decide, by decide⟩⟩

lemma Leads.tells_of_plain (h : Leads p [] init) (habs : p.isAbsolute = false)
    (hhead : init.head? ≠ some []) (hlast : IsName (lastPart p.bytes)) :
    Tells p (ContainerFile.directoryOf p) (lastPart p.bytes) := by
  by_cases hnil : joinNames (trimParts init) = []
  · exact h.tells_of_base habs hlast hnil
  · have htrim : trimParts init ≠ [] := fun htrim => hnil (by rw [htrim]; rfl)
    refine h.tells hlast [] hnil (steps_joinNames (h.notMem hlast) (by simp))
      (steps_joinNames h.notMem_kept htrim) ?_
    obtain ⟨first, kept, hfirst⟩ := List.exists_cons_of_ne_nil htrim
    have hmem : first ∈ init.head? := mem_head?_of_trimParts (by rw [hfirst]; rfl)
    have hne : first ≠ [] := fun hempty => hhead (hempty ▸ hmem)
    rw [habs]
    refine isAbsolute_of_parts (by rw [List.nil_append, hfirst]) hne (h.notMem_kept first ?_)
    rw [hfirst]
    exact List.mem_cons_self

/-- **A path goes through the directory that it tells**, and takes one more step from there. -/
theorem tells_directoryOf (h : IsName (lastPart p.bytes)) :
    Tells p (ContainerFile.directoryOf p) (lastPart p.bytes) := by
  obtain ⟨head, init, hleads⟩ := exists_leads h
  rcases hleads.front with rfl | ⟨habs, ⟨rfl, inner, rfl⟩ | ⟨rfl, hhead⟩⟩
  · exact hleads.tells_of_slash h
  · exact hleads.tells_of_dot habs h
  · exact hleads.tells_of_plain habs hhead h

end DeployClient.Path
