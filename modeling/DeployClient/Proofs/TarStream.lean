import DeployClient.Proofs.PathNames
import DeployClient.Proofs.TarBlocks

/-!
A tar stream reads back as the members it was made of.

A member becomes one to three raw entries: one for a name and one for a target that the
header has no room for, and the header with the data. The reader joins them again. What it
cannot restore is a target that was spelled anew to fit into the header.
-/

namespace DeployClient.Tar

open Archive (Kind)
open DeployClient.Path (joinNames)
open Bytes (slash dot)

/-! ### What a field keeps fits into it -/

lemma length_cutAtChar (n : Nat) (b : Bytes) : (cutAtChar n b).length ≤ n := by
  induction n with
  | zero => simp [cutAtChar]
  | succ n ih =>
    simp only [cutAtChar]
    split
    · simp
    · exact Nat.le_succ_of_le ih

lemma length_fitting (room : Nat) (pieces : List Bytes) : (fitting room pieces).length ≤ room := by
  induction pieces generalizing room with
  | nil => simp [fitting]
  | cons p ps ih =>
    simp only [fitting]
    split
    · have := ih (room - p.length)
      rw [List.length_append]
      omega
    · simp

lemma componentText_of_ofPart {part : Bytes} {c : Path.Component}
    (h : Path.Component.ofPart part = some c) : componentText c = part := by
  unfold Path.Component.ofPart at h
  split at h
  · simp at h
  · split at h
    · next hdots =>
      obtain rfl := Option.some.inj h
      exact hdots.symm
    · obtain rfl := Option.some.inj h
      rfl

/-- The texts of the components are some of the parts between the slashes. -/
lemma map_componentText_filterMap (parts : List Bytes) :
    (parts.filterMap Path.Component.ofPart).map componentText
      = parts.filter fun part => (Path.Component.ofPart part).isSome := by
  induction parts with
  | nil => rfl
  | cons part parts ih =>
    rcases h : Path.Component.ofPart part with _ | c
    · rw [List.filterMap_cons_none h, List.filter_cons_of_neg (by simp [h]), ih]
    · rw [List.filterMap_cons_some h, List.filter_cons_of_pos (by simp [h]), List.map_cons,
        componentText_of_ofPart h, ih]

lemma length_respellName (name : Bytes) : (respellName name).length ≤ name.length := by
  have htexts : (Path.innerComponents ⟨name⟩).map componentText
      = (name.splitOn slash).filter fun part => (Path.Component.ofPart part).isSome :=
    map_componentText_filterMap _
  rw [respellName, htexts]
  by_cases hlast : name.getLast? = some slash
  · -- the empty part after the last slash leaves room for it
    obtain ⟨b, rfl⟩ := List.getLast?_eq_some_iff.mp hlast
    have hsplit : (b ++ [slash]).splitOn slash = b.splitOn slash ++ [[]] := by
      rw [List.splitOn_append_cons_self, List.splitOn_nil]
    have hdrop : ([[]] : List Bytes).filter (fun part => (Path.Component.ofPart part).isSome)
        = [] := by
      simp [Path.Component.ofPart]
    have hle := Path.length_joinNames_le
      (List.filter_sublist (p := fun part => (Path.Component.ofPart part).isSome)
        (l := b.splitOn slash))
    rw [Path.joinNames_splitOn] at hle
    rw [if_pos hlast, hsplit, List.filter_append, hdrop, List.append_nil]
    simp only [List.length_append, List.length_singleton]
    omega
  · have hle := Path.length_joinNames_le
      (List.filter_sublist (p := fun part => (Path.Component.ofPart part).isSome)
        (l := name.splitOn slash))
    rw [Path.joinNames_splitOn] at hle
    rwa [if_neg hlast, List.append_nil]

lemma length_nameField (name : Bytes) : (nameField name).length ≤ nameWidth := by
  unfold nameField
  split
  · assumption
  · exact (length_respellName _).trans (length_cutAtChar _ _)

/-! ### Members as raw entries -/

namespace Member

/-- The target that a reader finds: one that goes into the header is spelled anew. -/
def storedTarget (m : Member) : Bytes :=
  if m.kind ≠ .symlink then []
  else if (linkText m.target).length ≤ nameWidth then Header.textField (linkField m.target)
  else m.target

/-- The member as a reader finds it. -/
def stored (m : Member) : Member := { m with target := m.storedTarget }

/-- What can be written of a member: a name of text, numbers that fit, and as much data as is
announced. -/
structure Writable (m : Member) : Prop where
  name : 0 ∉ m.name
  nameLength : m.name.length + 1 < 2 ^ 64
  mode : m.mode < 8 ^ 7
  mtime : m.mtime < 2 ^ 64
  size : m.size < 2 ^ 64
  data : m.data.length = m.size
  target : m.target.length + 1 < 2 ^ 64

def longNames (m : Member) : List RawEntry :=
  if m.name.length ≤ nameWidth then []
  else [⟨(longHeader longNameFlag (m.name.length + 1)).encode, m.name ++ [0]⟩]

def longLinks (m : Member) : List RawEntry :=
  if m.kind ≠ .symlink ∨ (linkText m.target).length ≤ nameWidth then []
  else [⟨(longHeader longLinkFlag (m.target.length + 1)).encode, m.target ++ [0]⟩]

def raw (m : Member) : List RawEntry :=
  m.longNames ++ m.longLinks ++ [⟨m.header.encode, m.data⟩]

lemma flatMap_raw (m : Member) : m.raw.flatMap RawEntry.encode = m.encode := by
  have hname : m.longNames.flatMap RawEntry.encode = m.longName := by
    unfold longNames longName
    split <;> simp [RawEntry.encode, longEntry]
  have hlink : m.longLinks.flatMap RawEntry.encode = m.longLink := by
    unfold longLinks longLink
    split <;> simp [RawEntry.encode, longEntry]
  simp only [raw, encode, List.flatMap_append, hname, hlink, List.flatMap_cons, List.flatMap_nil,
    List.append_nil, RawEntry.encode, List.append_assoc]

lemma fits_longHeader (flag : UInt8) {size : Nat} (h : size < 2 ^ 64) :
    (longHeader flag size).Fits where
  name := (by decide : (Bytes.ofText "././@LongLink").length ≤ nameWidth)
  mode := (by decide : 0o644 < 8 ^ 7)
  size := h
  mtime := (by decide : 0 < 2 ^ 64)
  link := Nat.zero_le _

variable {m : Member}

lemma fits_header (hm : m.Writable) : m.header.Fits where
  name := length_nameField m.name
  mode := hm.mode
  size := hm.size
  mtime := hm.mtime
  link := by
    simp only [header]
    split
    · exact length_fitting _ _
    · exact Nat.zero_le _

lemma sound_raw (hm : m.Writable) : ∀ e ∈ m.raw, e.Sound := by
  intro e he
  rcases List.mem_append.mp he with he | he
  · rcases List.mem_append.mp he with he | he
    · unfold longNames at he
      split at he
      · simp at he
      · rw [List.mem_singleton.mp he]
        exact RawEntry.sound_of_fits (fits_longHeader _ hm.nameLength) (by simp [longHeader])
    · unfold longLinks at he
      split at he
      · simp at he
      · rw [List.mem_singleton.mp he]
        exact RawEntry.sound_of_fits (fits_longHeader _ hm.target) (by simp [longHeader])
  · rw [List.mem_singleton.mp he]
    exact RawEntry.sound_of_fits (fits_header hm) hm.data.symm

/-! ### Joining them again -/

/-- The name that waits for the header. -/
def heldName (m : Member) : Option Bytes := if m.name.length ≤ nameWidth then none else some m.name

/-- The target that waits for the header. -/
def heldTarget (m : Member) : Option Bytes :=
  if m.kind ≠ .symlink ∨ (linkText m.target).length ≤ nameWidth then none else some m.target

lemma joinEntries_longNames (hm : m.Writable) (es : List RawEntry) :
    joinEntries none none (m.longNames ++ es) = joinEntries m.heldName none es := by
  unfold longNames heldName
  split
  · rfl
  · have hflag : (Header.decode (longHeader longNameFlag (m.name.length + 1)).encode).flag
        = longNameFlag := by
      rw [Header.decode_encode (fits_longHeader _ hm.nameLength)]
      rfl
    simp [joinEntries, RawEntry.header, hflag]

lemma joinEntries_longLinks (hm : m.Writable) (name : Option Bytes) (es : List RawEntry) :
    joinEntries name none (m.longLinks ++ es) = joinEntries name m.heldTarget es := by
  unfold longLinks heldTarget
  split
  · rfl
  · have hflag : (Header.decode (longHeader longLinkFlag (m.target.length + 1)).encode).flag
        = longLinkFlag := by
      rw [Header.decode_encode (fits_longHeader _ hm.target)]
      rfl
    have hne : longLinkFlag ≠ longNameFlag := by decide
    simp [joinEntries, RawEntry.header, hflag, hne]

lemma flagKind?_kindFlag (kind : Kind) : flagKind? (kindFlag kind) = some kind := by
  cases kind <;> rfl

/-- A name in the header is found as it is; one in front of it takes its place. -/
lemma getD_heldName (hm : m.Writable) :
    m.heldName.getD (Header.textField m.header.name) = m.name := by
  unfold heldName
  split
  · next hle =>
    have hfield : m.header.name = m.name := if_pos hle
    rw [Option.getD_none, hfield, Header.textField_eq_self hm.name]
  · rfl

lemma getD_heldTarget (m : Member) :
    m.heldTarget.getD (Header.textField m.header.link) = m.storedTarget := by
  unfold heldTarget storedTarget header
  by_cases hk : m.kind = .symlink
  · by_cases hle : (linkText m.target).length ≤ nameWidth <;> simp [hk, hle]
  · simp [hk, Header.textField]

lemma joinEntries_header (hm : m.Writable) (es : List RawEntry) :
    joinEntries m.heldName m.heldTarget (⟨m.header.encode, m.data⟩ :: es)
      = (joinEntries none none es).map (m.stored :: ·) := by
  have hdecode := Header.decode_encode (fits_header hm)
  have hname : m.header.flag ≠ longNameFlag := by
    show kindFlag m.kind ≠ longNameFlag
    cases m.kind <;> decide
  have hlink : m.header.flag ≠ longLinkFlag := by
    show kindFlag m.kind ≠ longLinkFlag
    cases m.kind <;> decide
  have hkind : flagKind? m.header.flag = some m.kind := flagKind?_kindFlag m.kind
  simp only [joinEntries, RawEntry.header, hdecode, hname, hlink, if_false, hkind,
    getD_heldName hm, getD_heldTarget]
  rcases joinEntries none none es with _ | ms <;> rfl

lemma joinEntries_raw (hm : m.Writable) (es : List RawEntry) :
    joinEntries none none (m.raw ++ es) = (joinEntries none none es).map (m.stored :: ·) := by
  rw [raw, List.append_assoc, List.append_assoc, joinEntries_longNames hm,
    joinEntries_longLinks hm, List.singleton_append, joinEntries_header hm]

end Member

variable {ms : List Member}

lemma joinEntries_flatMap (hs : ∀ m ∈ ms, m.Writable) :
    joinEntries none none (ms.flatMap Member.raw) = some (ms.map Member.stored) := by
  induction ms with
  | nil => rfl
  | cons m ms ih =>
    rw [List.flatMap_cons, Member.joinEntries_raw (hs m List.mem_cons_self),
      ih fun n hn => hs n (List.mem_cons_of_mem _ hn)]
    rfl

/-- **The round trip**: a stream holds its members, in their order, and nothing else. -/
theorem decode?_encode (hs : ∀ m ∈ ms, m.Writable) :
    decode? (encode ms) = some (ms.map Member.stored) := by
  have hraw : ∀ e ∈ ms.flatMap Member.raw, e.Sound := by
    intro e he
    obtain ⟨m, hm, he⟩ := List.mem_flatMap.mp he
    exact Member.sound_raw (hs m hm) e he
  have hencode : encode ms = (ms.flatMap Member.raw).flatMap RawEntry.encode ++ endBlocks := by
    rw [encode, List.flatMap_assoc]
    simp only [Member.flatMap_raw]
  rw [decode?, hencode, rawEntries?_flatMap hraw]
  exact joinEntries_flatMap hs

end DeployClient.Tar
