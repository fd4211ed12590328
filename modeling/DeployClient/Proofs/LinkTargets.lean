import DeployClient.Proofs.ArchiveStream
import DeployClient.Proofs.Contents
import DeployClient.Proofs.TargetText

/-!
Symbolic links in a stream.

The entry of a link holds no data. Its target is spelled anew as long as that has room in the
header, so it comes back as it was read if it has no part that is lost then, or if it is too
long.
-/

namespace DeployClient.Archive

open Tar (Member)

variable {fs : FileSystem} {source base : Path} {node : Node} {w w' : Writer} {op : Op} {n : Nat}
  {above own : List Record}

/-! ### Links in a run -/

lemma Op.Adds.added (hadds : op.Adds fs base source node) (h : op.run w = .ok n w') :
    ∃ above own, Added fs base source node w n w' above own := by
  rcases hadds with rfl | rfl
  · obtain ⟨own, hadded⟩ := (addPath_ends fs source base node false w).of_ok h
    exact ⟨[], own, hadded⟩
  · obtain ⟨above, own, hadded, -⟩ := (addFile_ends fs source base node w).of_ok h
    exact ⟨above, own, hadded⟩

/-- Where anything is written, the node's own entry is the last. -/
lemma Added.exists_own (h : Added fs base source node w n w' above own) (hn : n ≠ 0) :
    ∃ r, own = [r] ∧ r.Made w.patterns w.filesOnly fs base ∧ r.entry.source = source
      ∧ r.node = node := by
  have hne : own ≠ [] := by
    intro hown
    have habove : above = [] := by
      by_contra hne
      exact h.led hne hown
    rw [h.count, habove, hown] at hn
    exact hn rfl
  obtain ⟨r, rest, rfl⟩ := List.exists_cons_of_ne_nil hne
  obtain rfl : rest = [] := List.eq_nil_of_length_eq_zero (by simpa using h.single)
  exact ⟨r, rfl, h.logs.made r (by simp), h.given r (by simp)⟩

/-- How a symbolic link with this target is found in a stream. -/
structure LinkFound (t : Bytes) (m : Member) : Prop where
  kind : m.kind = .symlink
  size : m.size = 0
  data : m.data = []
  target : 0 ∉ t → (m.target = t ↔ Tar.IsPlain t ∨ Tar.nameWidth < (Tar.linkText t).length)
  components : 0 ∉ t → (⟨m.target⟩ : Path).components = (⟨t⟩ : Path).components

/-- The entry of a link carries what reading the link gives. -/
lemma Record.Made.linkFound {patterns : Ignore.Patterns} {filesOnly : Bool} {r : Record}
    (h : r.Made patterns filesOnly fs base) (hlink : r.node.isSymlink = true) :
    ∃ t, fs.readLink r.entry.source = .ok t ∧ LinkFound t r.member.stored := by
  obtain ⟨path, hp, -⟩ := h.entryOf.passes
  obtain ⟨stamp, t, hnode⟩ : ∃ stamp t, r.node = .symlink stamp t := by
    cases hn : r.node with
    | symlink stamp t => exact ⟨stamp, t, rfl⟩
    | _ => simp [hn, Node.isSymlink] at hlink
  have hkind : r.entry.kind = .symlink := by
    have hofNode := hp.ofNode
    rw [hnode] at hofNode
    exact (Option.some.inj hofNode).symm
  have htarget := h.entryOf.target
  rw [hkind] at htarget
  have hsize : r.entry.size = 0 := by rw [h.entryOf.size, hnode]; rfl
  have hdata : r.data = [] := by
    have hdelivers := h.delivers
    rwa [Delivers, if_neg (by simp [hkind])] at hdelivers
  exact ⟨r.entry.target, htarget, hkind, hsize, hdata,
    Member.storedTarget_eq_iff (m := r.member) hkind,
    Member.components_storedTarget (m := r.member) hkind⟩

/-- What one of the operations of a run has written stands where the counts say. -/
lemma exists_made_of_runs {before after : List Op} {w₀ w'' : Writer} {i j : Nat}
    (hadds : op.Adds fs base source node) (hm : w₀.members = [])
    (hbefore : runAll before w₀ = .ok i w) (hrun : op.run w = .ok n w') (hn : n ≠ 0)
    (hafter : runAll after w' = .ok j w'') :
    ∃ r : Record, r.Made w.patterns w.filesOnly fs base ∧ r.entry.source = source ∧ r.node = node
      ∧ w''.members[i + n - 1]? = some r.member := by
  obtain ⟨above, own, hadded⟩ := hadds.added hrun
  obtain ⟨r, rfl, hmade, hsource, hnode⟩ := hadded.exists_own hn
  obtain ⟨rs, hlogs, hi, -⟩ := (runAll_ends before w₀).of_ok hbefore
  obtain ⟨ss, hlogs', -, -⟩ := (runAll_ends after w').of_ok hafter
  obtain ⟨_, hg, -⟩ := hlogs.grows
  obtain ⟨_, hg', -⟩ := hadded.logs.grows
  obtain ⟨_, hg'', -⟩ := hlogs'.grows
  refine ⟨r, hmade, hsource, hnode, ?_⟩
  have hmembers : w''.members
      = (rs ++ above).map Record.member ++ r.member :: ss.map Record.member := by
    rw [hg''.members, hg'.members, hg.members, hm]
    simp
  have hindex : i + n - 1 = ((rs ++ above).map Record.member).length := by
    rw [hadded.count, hi]
    simp
  rw [hmembers, hindex, List.getElem?_append_right (Nat.le_refl _)]
  simp

/-- **The entry of a link has no data, and its target is the one that was read**, byte for byte
if the target is plain or too long to be spelled anew, and with the same components in any case. -/
theorem link_found_in_stream {before after : List Op} {w₀ w'' : Writer} {i j : Nat}
    (hadds : op.Adds fs base source node) (hlink : node.isSymlink = true)
    (ho : ∀ o ∈ before ++ op :: after, o.Ordinary) (hc : w₀.claims = .empty)
    (hm : w₀.members = []) (hbefore : runAll before w₀ = .ok i w) (hrun : op.run w = .ok n w')
    (hn : n ≠ 0) (hafter : runAll after w' = .ok j w'') :
    ∃ t ms m, fs.readLink source = .ok t ∧ Tar.decode? (Tar.encode w''.members) = some ms
      ∧ ms[i + n - 1]? = some m ∧ LinkFound t m := by
  have hwhole : ∃ k, runAll (before ++ op :: after) w₀ = .ok k w'' := by
    refine ⟨_, runAll_append_eq_ok_iff.mpr ⟨i, w, n + j, hbefore, ?_, rfl⟩⟩
    rw [← List.singleton_append]
    exact runAll_append_eq_ok_iff.mpr ⟨n, w', j, by rwa [runAll_singleton], hafter, rfl⟩
  obtain ⟨k, hwhole⟩ := hwhole
  obtain ⟨rs, haccounts⟩ := exists_accounts hc hm hwhole
  have hwritable : ∀ m ∈ w''.members, m.Writable := by
    rw [haccounts.entries]
    intro m hmem
    obtain ⟨r, hr, rfl⟩ := List.mem_map.mp hmem
    obtain ⟨o, hmem, hwritten⟩ := haccounts.origin r hr
    exact hwritten.writable (ho o hmem)
  obtain ⟨r, hmade, rfl, rfl, hr⟩ := exists_made_of_runs hadds hm hbefore hrun hn hafter
  obtain ⟨t, ht, hfound⟩ := hmade.linkFound hlink
  refine ⟨t, _, _, ht, Tar.decode?_encode hwritable, ?_, hfound⟩
  rw [List.getElem?_map, hr, Option.map_some]

/-- Nothing in the tree is out of bounds, so nothing that is looked up in it is. -/
lemma bounded_of_lstat {P : Node → Prop} (hroot : P fs.root)
    (hentry : ∀ d name k, P d → (name, k) ∈ d.entries → P k) (hbounded : ∀ n, P n → Bounded n)
    (p : Path) (n : Node) (h : fs.lstat p = .ok n) : Bounded n := by
  obtain ⟨ns, hns⟩ := FileSystem.lstat_eq_ok_iff.mp h
  have hfinds : n = fs.standing ns := FileSystem.finds_of_resolve hns
  cases hnode : fs.nodeAt? ns with
  | some k =>
    rw [hfinds, FileSystem.standing_eq hnode]
    exact hbounded k (Node.descend?_induction hroot hentry hnode)
  | none =>
    have hempty : n = .directory (fs.stamp 0o755) [] := by
      rw [hfinds, FileSystem.standing, hnode]
      rfl
    rw [hempty]
    exact ⟨by show 0o040755 < 8 ^ 7; decide, by show 0 < 2 ^ 64; decide,
      fun _ _ he => by simp at he⟩

/-- A link with dots and a slash at its end, after a file. -/
theorem link_found_in_stream_slash :
    let file := Node.file ⟨0o644, 5, .root⟩ [104]
    let link := Node.symlink ⟨0o777, 7, .root⟩ [46, 46, 47, 97, 47]
    let fs : FileSystem :=
      ⟨.directory ⟨0o755, 0, .root⟩ [([102], file), ([108], link)], [], 0, .root⟩
    let before : List Op := [.file fs (.ofText "/f") (.ofText "/") file]
    let op : Op := .file fs (.ofText "/l") (.ofText "/") link
    ∃ w w' ms m, runAll before (.new ⟨[], []⟩ false) = .ok 1 w ∧ op.run w = .ok 1 w'
      ∧ Tar.decode? (Tar.encode w'.members) = some ms ∧ ms[1]? = some m
      ∧ m.target = [46, 46, 47, 97, 47] := by
  intro file link fs before op
  have hbounded : ∀ p n, fs.lstat p = .ok n → Bounded n := by
    refine bounded_of_lstat (P := fun n => n = fs.root ∨ n = file ∨ n = link) (.inl rfl) ?_ ?_
    · rintro d name k (rfl | rfl | rfl) hmem
      · have hmem' : (name, k) ∈ [([102], file), ([108], link)] := hmem
        simp only [List.mem_cons, List.not_mem_nil, or_false, Prod.mk.injEq] at hmem'
        exact .inr (hmem'.imp And.right And.right)
      · simp [file, Node.entries] at hmem
      · simp [link, Node.entries] at hmem
    · rintro n (rfl | rfl | rfl)
      · exact ⟨by decide, by decide, fun _ _ he => by simp [fs] at he⟩
      · exact ⟨by decide, by decide, fun _ _ he => by simp [file] at he⟩
      · refine ⟨by decide, by decide, fun _ t he => ?_⟩
        obtain ⟨-, rfl⟩ := Node.symlink.inj he
        decide
  have hordinary : ∀ o ∈ before ++ op :: [], o.Ordinary := by
    intro o ho
    rcases List.mem_cons.mp ho with rfl | ho
    · exact ⟨by decide, by decide, hbounded (.ofText "/f") _ rfl, hbounded⟩
    · obtain rfl := List.mem_singleton.mp ho
      exact ⟨by decide, by decide, hbounded (.ofText "/l") _ rfl, hbounded⟩
  obtain ⟨w, hw, w', hw'⟩ : ∃ w, runAll before (.new ⟨[], []⟩ false) = .ok 1 w
      ∧ ∃ w', op.run w = .ok 1 w' := by
    refine ⟨{ Writer.new ⟨[], []⟩ false with
      claims := ⟨[([102], ⟨.file, .ofText "/f"⟩)]⟩
      members := [⟨[102], .file, 0o100644, .root, 5, 1, [], [104]⟩]
      notes := [.event (.archived [102] .file 1)] }, rfl, _, rfl⟩
  obtain ⟨t, ms, m, ht, hms, hm, hfound⟩ :=
    link_found_in_stream (.inr rfl) rfl hordinary rfl rfl hw hw' one_ne_zero rfl
  obtain rfl : [46, 46, 47, 97, 47] = t := Except.ok.inj ht
  exact ⟨w, w', ms, m, hw, hw', hms, hm, (hfound.target (by decide)).mpr (.inl (by decide))⟩

/-- A target with a slash too many loses it. -/
theorem link_target_respelled :
    let link := Node.symlink ⟨0o777, 7, .root⟩ [97, 47, 47, 98]
    let fs : FileSystem := ⟨.directory ⟨0o755, 0, .root⟩ [([108], link)], [], 0, .root⟩
    fs.readLink (.ofText "/l") = .ok [97, 47, 47, 98]
      ∧ ∃ w, addFile fs (.ofText "/l") (.ofText "/") link (.new ⟨[], []⟩ false) = .ok 1 w
        ∧ Tar.decode? (Tar.encode w.members)
          = some [⟨[108], .symlink, 0o120777, .root, 7, 0, [97, 47, 98], []⟩] := by
  intro link fs
  exact ⟨rfl, _, rfl, by decide +kernel⟩

end DeployClient.Archive
