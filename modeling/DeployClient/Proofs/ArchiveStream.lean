import DeployClient.Proofs.EntryNames
import DeployClient.Proofs.Lookup
import DeployClient.Proofs.Operations
import DeployClient.Proofs.TarStream

/-!
The stream that a writer leaves, and what a reader finds in it.

A header has room for modes of 21 bits, where a system has 16, and for numbers of 64 bits, and
a text in it ends at the first NUL, which no path holds. Within these bounds everything that is
written is read back.
-/

namespace DeployClient.Archive

open Tar (Member)

lemma unsignedTime_lt (t : Int) : Tar.unsignedTime t < 2 ^ 64 := by
  unfold Tar.unsignedTime
  omega

/-! ### Writing one entry after the other -/

/-- An entry to write: the node it was inspected as, and the file system it is read from. -/
structure Task where
  fs : FileSystem
  entry : Entry
  node : Node

namespace Task

def run (t : Task) : Writing Unit := write t.fs t.entry t.node

/-- Of a file, as many bytes as the entry announces. -/
def data (t : Task) : Bytes :=
  match t.entry.kind, t.fs.read t.entry.source with
  | .file, .ok content => content.take t.entry.size
  | _, _ => []

def member (t : Task) : Member := memberOf t.entry t.node t.data

/-- What a reader is to find. -/
def readBack (t : Task) : Member where
  name := t.entry.name
  kind := t.entry.kind
  mode := t.node.mode
  owner := t.node.stamp.owner
  mtime := Tar.unsignedTime t.node.stamp.mtime
  size := t.entry.size
  target := t.member.storedTarget
  data := t.data

/-- The bounds of what a system tells of a node. Only files announce data. -/
structure Sound (t : Task) : Prop where
  name : 0 ∉ t.entry.name
  nameLength : t.entry.name.length + 1 < 2 ^ 64
  mode : t.node.mode < 8 ^ 7
  size : t.entry.size < 2 ^ 64
  empty : t.entry.kind ≠ .file → t.entry.size = 0
  target : t.entry.target.length + 1 < 2 ^ 64

variable {t : Task}

lemma data_eq_of_delivers {data : Bytes} (h : Delivers t.fs t.entry data) : t.data = data := by
  unfold Delivers at h
  split at h
  · next hk =>
    obtain ⟨content, hc, -, rfl⟩ := h
    simp [Task.data, hk, hc]
  · next hk =>
    rw [h]
    unfold Task.data
    split
    · next hk' _ => exact absurd hk' hk
    · rfl

lemma writable_member (hs : t.Sound) (hd : Delivers t.fs t.entry t.data) : t.member.Writable where
  name := hs.name
  nameLength := hs.nameLength
  mode := hs.mode
  mtime := unsignedTime_lt _
  size := hs.size
  data := length_of_delivers hd hs.empty
  target := hs.target

/-- One entry adds the member of its task. -/
lemma run_ends (t : Task) (w : Writer) :
    Ends t.run w (fun _ w' => w'.members = w.members ++ [t.member] ∧ Delivers t.fs t.entry t.data)
      fun _ _ => True := by
  refine (write_ends t.fs t.entry t.node w).mono ?_ fun _ _ _ => trivial
  rintro _ w' ⟨-, data, hd, hg⟩
  obtain rfl := data_eq_of_delivers hd
  exact ⟨hg.members, hd⟩

end Task

def writeAll : List Task → Writing Unit
  | [] => pure ()
  | t :: ts => do
    t.run
    writeAll ts

lemma writeAll_ends (ts : List Task) (w : Writer) :
    Ends (writeAll ts) w
      (fun _ w' => w'.members = w.members ++ ts.map Task.member
        ∧ ∀ t ∈ ts, Delivers t.fs t.entry t.data) fun _ _ => True := by
  induction ts generalizing w with
  | nil => exact Ends.pure ⟨by simp, by simp⟩
  | cons t ts ih =>
    refine Ends.bind (t.run_ends w) ?_
    rintro _ w' ⟨hm, hd⟩
    refine (ih w').mono ?_ fun _ _ _ => trivial
    rintro _ w'' ⟨hms, hds⟩
    refine ⟨by rw [hms, hm, List.map_cons, List.append_assoc, List.singleton_append], ?_⟩
    intro u hu
    rcases List.mem_cons.mp hu with rfl | hu
    · exact hd
    · exact hds u hu

/-- **What is written is read back**: the entries in their order, each with its name, its kind,
its owner, its numbers and the bytes of its file, and nothing else. -/
theorem written_entries_read_back {ts : List Task} {w w' : Writer} (hs : ∀ t ∈ ts, t.Sound)
    (hw : w.members = []) (h : writeAll ts w = .ok () w') :
    Tar.decode? (Tar.encode w'.members) = some (ts.map Task.readBack)
      ∧ ∀ t ∈ ts, t.data.length = t.entry.size ∧ (t.entry.kind = .file →
        ∃ content, t.fs.read t.entry.source = .ok content
          ∧ t.data = content.take t.entry.size) := by
  obtain ⟨hm, hd⟩ := (writeAll_ends ts w).of_ok h
  rw [hw, List.nil_append] at hm
  have hwritable : ∀ m ∈ ts.map Task.member, m.Writable := by
    intro m hmem
    obtain ⟨t, ht, rfl⟩ := List.mem_map.mp hmem
    exact Task.writable_member (hs t ht) (hd t ht)
  constructor
  · rw [hm, Tar.decode?_encode hwritable, List.map_map]
    rfl
  · intro t ht
    refine ⟨length_of_delivers (hd t ht) (hs t ht).empty, fun hk => ?_⟩
    have hdt := hd t ht
    rw [Delivers, if_pos hk] at hdt
    obtain ⟨content, hc, -, hdata⟩ := hdt
    exact ⟨content, hc, hdata⟩

/-- A file under a name too long for its header, from before the epoch, and a link to it. -/
theorem written_entries_read_back_long_name :
    let file := Node.file ⟨0o644, -1, .root⟩ [104, 105]
    let fs : FileSystem := ⟨.directory ⟨0o755, 0, .root⟩ [([102], file)], [], 0, .root⟩
    let name := List.replicate 101 97
    let ts : List Task := [⟨fs, ⟨name, .file, [], 2, .ofText "/f"⟩, file⟩,
      ⟨fs, ⟨[108], .symlink, [102], 0, .ofText "/l"⟩, .symlink ⟨0o777, 7, .root⟩ [102]⟩]
    ∃ w', writeAll ts (.new ⟨[], []⟩ false) = .ok () w' ∧ Tar.decode? (Tar.encode w'.members)
      = some [⟨name, .file, 0o100644, .root, 2 ^ 64 - 1, 2, [], [104, 105]⟩,
        ⟨[108], .symlink, 0o120777, .root, 7, 0, [102], []⟩] := by
  intro file fs name ts
  have hs : ∀ t ∈ ts, t.Sound := by
    intro t ht
    rcases List.mem_cons.mp ht with rfl | ht
    · constructor <;> decide
    · obtain rfl := List.mem_singleton.mp ht
      constructor <;> decide
  obtain ⟨w', hw'⟩ : ∃ w', writeAll ts (.new ⟨[], []⟩ false) = .ok () w' := ⟨_, rfl⟩
  exact ⟨w', hw', (written_entries_read_back hs rfl hw').1.trans (by decide)⟩

/-! ### Operations within the bounds -/

/-- The numbers of a node have the widths of a system's own. -/
structure Bounded (n : Node) : Prop where
  mode : n.mode < 8 ^ 7
  size : n.size < 2 ^ 64
  target : ∀ stamp t, n = .symlink stamp t → t.length + 1 < 2 ^ 64

/-- A node of a path that a system takes, and a file system that tells nothing out of bounds. -/
structure Ordinary (fs : FileSystem) (source : Path) (node : Node) : Prop where
  text : 0 ∉ source.bytes
  length : source.bytes.length + 1 < 2 ^ 64
  node : Bounded node
  others : ∀ p n, fs.lstat p = .ok n → Bounded n

def Op.Ordinary : Op → Prop
  | .path fs source _ node => Archive.Ordinary fs source node
  | .file fs source _ node => Archive.Ordinary fs source node
  | _ => True

variable {fs : FileSystem} {patterns : Ignore.Patterns} {filesOnly : Bool} {base : Path}
  {r : Record}

lemma mem_of_mem_nameIn {path : Bytes} {x : UInt8} (h : x ∈ nameIn filesOnly path) :
    x ∈ path := by
  unfold nameIn at h
  split at h
  · exact Path.mem_of_mem_splitOn (Path.lastPart_mem path) h
  · exact h

lemma length_nameIn (filesOnly : Bool) (path : Bytes) :
    (nameIn filesOnly path).length ≤ path.length := by
  unfold nameIn
  split
  · exact Path.length_le_of_mem_splitOn (Path.lastPart_mem path)
  · exact Nat.le_refl _

lemma exists_symlink_of_readLink {p : Path} {t : Bytes} (h : fs.readLink p = .ok t) :
    ∃ stamp, fs.lstat p = .ok (.symlink stamp t) := by
  unfold FileSystem.readLink at h
  split at h
  · next stamp t' hl =>
    obtain rfl := Except.ok.inj h
    exact ⟨stamp, hl⟩
  · simp at h
  · simp at h

lemma Record.Made.writable (h : r.Made patterns filesOnly fs base)
    (ho : Ordinary fs r.entry.source r.node) : r.member.Writable := by
  obtain ⟨path, hp, hname⟩ := h.entryOf.passes
  have htext := Path.notMem_of_named hp.named ho.text
  have hlength := Path.length_of_named hp.named
  have hlast := length_nameIn filesOnly path
  have hsource := ho.length
  have hempty : r.entry.kind ≠ .file → r.entry.size = 0 := by
    intro hk
    rw [h.entryOf.size]
    have hkind := hp.ofNode
    cases hn : r.node with
    | file stamp content =>
      rw [hn] at hkind
      exact absurd (Option.some.inj hkind).symm hk
    | _ => rfl
  have htarget : r.entry.target.length + 1 < 2 ^ 64 := by
    have ht := h.entryOf.target
    unfold targetOf at ht
    split at ht
    · obtain ⟨stamp, hl⟩ := exists_symlink_of_readLink ht
      exact (ho.others _ _ hl).target _ _ rfl
    · rw [← Except.ok.inj ht]
      decide
  have hsize : r.entry.size < 2 ^ 64 := by
    rw [h.entryOf.size]
    exact ho.node.size
  refine ⟨?_, ?_, ho.node.mode, unsignedTime_lt _, hsize, ?_, htarget⟩
  · show 0 ∉ r.entry.name
    rw [hname]
    exact fun h0 => htext (mem_of_mem_nameIn h0)
  · show r.entry.name.length + 1 < 2 ^ 64
    rw [hname]
    omega
  · exact length_of_delivers h.delivers hempty

/-- A path that is looked up is one that a system takes. -/
lemma ordinary_of_lstat {p : Path} {n : Node} (h : ∀ p n, fs.lstat p = .ok n → Bounded n)
    (hl : fs.lstat p = .ok n) : Ordinary fs p n := by
  have htakes := FileSystem.takes_of_lstat hl
  refine ⟨htakes.text, ?_, h p n hl, h⟩
  have hlength := htakes.length
  unfold FileSystem.maxPath at hlength
  omega

/-- Directories above a file are looked up, so their paths are in order. -/
lemma Record.WrittenBy.writable {op : Op} (h : r.WrittenBy patterns filesOnly op)
    (ho : op.Ordinary) : r.member.Writable := by
  cases op with
  | path fs source base node =>
    obtain ⟨hmade, rfl, rfl⟩ := h
    exact hmade.writable ho
  | file fs source base node =>
    obtain ⟨hmade, ⟨rfl, rfl⟩ | ⟨himplied, -⟩⟩ := h
    · exact hmade.writable ho
    · exact hmade.writable (ordinary_of_lstat ho.others himplied.lstat)
  | _ => exact h.elim

end DeployClient.Archive
