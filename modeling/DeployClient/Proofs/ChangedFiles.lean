import DeployClient.Proofs.Admission
import DeployClient.Proofs.LinkTargets

/-!
Files that change between the look at them and the copy.

The header is made from the look. What is copied is never more than the header announces, and if
it is less the operation fails, so what has been written is always in line with its header.
-/

namespace DeployClient.Archive

open Tar (Member)

variable {w w' : Writer} {fs : FileSystem} {source base : Path} {node : Node} {path : Bytes}
  {op : Op} {e : Entry} {content : Bytes}

/-! ### The directories above -/

/-- Once a node is let in, the directories above it come first, and they do not fail. -/
lemma Admits.exists_above {kind : Kind} {t : Bytes} (hadds : op.Adds fs base source node)
    (h : Admits w base source node path kind) (ht : targetOf fs kind source = .ok t)
    (hsink : w.sinkFault = none)
    (hparents : ∀ q ∈ parentsBelow source base, ∃ k, fs.lstat q = .ok k) :
    ∃ above w₁, Logs (fun r => r.Made w.patterns w.filesOnly fs base ∧ Implied fs base source r)
        (claimedBy w source path kind) w₁ above
      ∧ (op = .path fs source base node → above = [])
      ∧ op.run w = (do
          write fs (entryAs w source node path kind t) node
          return above.length + 1) w₁ := by
  rcases hadds with rfl | rfl
  · exact ⟨[], _, .of_grows (Grows.refl _) rfl, fun _ => rfl, h.addPath_eq ht false⟩
  · have hgood : ¬ BadParent fs base (if w.filesOnly then [] else parentsBelow source base) := by
      split
      · rintro ⟨q, hq, -⟩
        simp at hq
      · exact not_badParent hparents
    obtain ⟨k, w₁, hrun, above, hlogs, rfl, habove⟩ :=
      (addParents_ends fs base (if w.filesOnly then [] else parentsBelow source base)
        (claimedBy w source path kind)).exists_ok fun _ _ hf =>
          hf.2.2.elim (fun hs => hs hsink) hgood
    refine ⟨above, w₁, ⟨hlogs.grows, fun r hr => ⟨hlogs.made r hr, ?_⟩⟩, by simp, ?_⟩
    · obtain ⟨hmem, hl, hdir⟩ := habove r hr
      refine ⟨?_, hl, hdir⟩
      split at hmem
      · simp at hmem
      · exact hmem
    · show addFile fs source base node w = _
      rw [h.addFile_eq ht, bind_of_ok hrun]

/-! ### Files that have changed -/

/-- The entry of a file that was looked at as this node, with some data. -/
def fileEntry (w : Writer) (node : Node) (path data : Bytes) : Member :=
  ⟨nameIn w.filesOnly path, .file, node.mode, node.stamp.owner,
    Tar.unsignedTime node.stamp.mtime, node.size, [], data⟩

/-- What is written after a whole entry does not touch it, and all is read back. -/
lemma decode?_of_whole {before : List Member} {m : Member} {after : List Op} {w'' : Writer}
    {j : Nat} (hmembers : w'.members = before ++ [m]) (hbefore : ∀ m ∈ before, m.Writable)
    (hm : m.Writable) (ho : ∀ o ∈ after, o.Ordinary) (hafter : runAll after w' = .ok j w'') :
    ∃ later, w''.members = before ++ m :: later
      ∧ Tar.decode? (Tar.encode w''.members)
        = some (before.map Member.stored ++ m.stored :: later.map Member.stored) := by
  obtain ⟨rs, hlogs, -, -⟩ := (runAll_ends after w').of_ok hafter
  obtain ⟨_, hg, -⟩ := hlogs.grows
  have hall : w''.members = before ++ m :: rs.map Record.member := by
    rw [hg.members, hmembers, List.append_assoc, List.singleton_append]
  refine ⟨rs.map Record.member, hall, ?_⟩
  have hwritable : ∀ x ∈ w''.members, x.Writable := by
    rw [hall]
    intro x hx
    rcases List.mem_append.mp hx with hx | hx
    · exact hbefore x hx
    · rcases List.mem_cons.mp hx with rfl | hx
      · exact hm
      · obtain ⟨r, hr, rfl⟩ := List.mem_map.mp hx
        obtain ⟨o, hmem, hwritten⟩ := hlogs.made r hr
        exact hwritten.writable (ho o hmem)
  rw [Tar.decode?_encode hwritable, hall, List.map_append, List.map_cons]

/-- **A file that changes after it was looked at is cut or refused.** If it still has as many bytes
as were announced, they are its entry, and what follows is read back like the entry itself. If it
has less, or can no longer be opened, the operation fails and says so; of a file that is gone there
is no trace. -/
theorem changed_file (hadds : op.Adds fs base source node)
    (h : Admits w base source node path .file) (hsink : w.sinkFault = none)
    (hparents : ∀ q ∈ parentsBelow source base, ∃ k, fs.lstat q = .ok k) :
    ∃ above : List Record,
      (∀ r ∈ above, r.Made w.patterns w.filesOnly fs base ∧ Implied fs base source r)
      ∧ (op = .path fs source base node → above = [])
      ∧ (∀ content, fs.read source = .ok content → node.size ≤ content.length →
        ∃ w', op.run w = .ok (above.length + 1) w'
          ∧ w'.members = w.members ++ above.map Record.member
            ++ [fileEntry w node path (content.take node.size)]
          ∧ (op.Ordinary → (∀ m ∈ w.members, m.Writable) → ∀ after j w'',
            (∀ o ∈ after, o.Ordinary) → runAll after w' = .ok j w'' → ∃ later,
              w''.members = w.members ++ above.map Record.member
                ++ fileEntry w node path (content.take node.size) :: later
              ∧ Tar.decode? (Tar.encode w''.members)
                = some ((w.members ++ above.map Record.member).map Member.stored
                  ++ fileEntry w node path (content.take node.size) :: later.map Member.stored)))
      ∧ (∀ content, fs.read source = .ok content → content.length < node.size →
        ∃ w', op.run w = .error (.shortWrite source node.size content.length) w'
          ∧ w'.members = w.members ++ above.map Record.member ++ [fileEntry w node path content])
      ∧ ∀ os, fs.openNode source = .error os → ∃ w', op.run w = .error (.io (.os os)) w'
          ∧ w'.members = w.members ++ above.map Record.member := by
  obtain ⟨above, w₁, hlogs, hpath, hrun⟩ := h.exists_above hadds rfl hsink hparents
  obtain ⟨cs, hg, -⟩ := hlogs.grows
  have hsink₁ : w₁.sinkFault = none := hg.sinkFault.trans hsink
  have hmembers : w₁.members = w.members ++ above.map Record.member := hg.members
  have hrunOk : ∀ w', write fs (entryAs w source node path .file []) node w₁ = .ok () w' →
      op.run w = .ok (above.length + 1) w' := by
    intro w' hwrite
    rw [hrun, bind_of_ok hwrite]
    rfl
  have hrunError : ∀ e w', write fs (entryAs w source node path .file []) node w₁ = .error e w' →
      op.run w = .error e w' := by
    intro e w' hwrite
    rw [hrun, bind_of_error hwrite]
  refine ⟨above, hlogs.made, hpath, ?_, ?_, ?_⟩
  · intro content hread hle
    have hwrite := (write_read (e := entryAs w source node path .file []) rfl hsink₁ node
      hread).trans (if_neg (Nat.not_lt.mpr hle))
    have hwhole : ((w₁.append (fileEntry w node path (content.take node.size))).note
        (.event (.archived (nameIn w.filesOnly path) .file node.size))).members
        = w.members ++ above.map Record.member
          ++ [fileEntry w node path (content.take node.size)] := by
      rw [← hmembers]
      rfl
    refine ⟨_, hrunOk _ hwrite, hwhole, fun hordinary hwritable after j w'' ho hafter => ?_⟩
    have hsource : Ordinary fs source node := by
      rcases hadds with rfl | rfl <;> exact hordinary
    have hmade : Record.Made w.patterns w.filesOnly fs base
        ⟨entryAs w source node path .file [], node, content.take node.size⟩ :=
      ⟨h.entryOf rfl, delivers_of_read rfl hread hle⟩
    refine decode?_of_whole hwhole ?_ (hmade.writable hsource) ho hafter
    intro m hm
    rcases List.mem_append.mp hm with hm | hm
    · exact hwritable m hm
    · obtain ⟨r, hr, rfl⟩ := List.mem_map.mp hm
      obtain ⟨hmade, himplied⟩ := hlogs.made r hr
      exact hmade.writable (ordinary_of_lstat hsource.others himplied.lstat)
  · intro content hread hlt
    have hwrite := (write_read (e := entryAs w source node path .file []) rfl hsink₁ node
      hread).trans (if_pos hlt)
    refine ⟨_, hrunError _ _ hwrite, ?_⟩
    rw [← hmembers]
    rfl
  · intro os hopen
    exact ⟨w₁, hrunError _ _ (write_unopened rfl hopen node _), hmembers⟩

/-- A file of two bytes in a directory, which has three, or one, or is gone when it is read. -/
theorem changed_file_grown_short_gone :
    let looked := Node.file ⟨0o644, 5, .root⟩ [104, 105]
    let fs (now : List (Bytes × Node)) : FileSystem :=
      ⟨.directory ⟨0o755, 0, .root⟩ [([100], .directory ⟨0o755, 6, .root⟩ now)], [], 0, .root⟩
    let op (now : List (Bytes × Node)) : Op :=
      .file (fs now) (.ofText "/d/f") (.ofText "/") looked
    let w := Writer.new ⟨[], []⟩ false
    (∃ k w', (op [([102], .file ⟨0o644, 8, .root⟩ [104, 105, 106])]).run w = .ok k w'
        ∧ w'.members.getLast? = some ⟨[100, 47, 102], .file, 0o100644, .root, 5, 2, [], [104, 105]⟩)
      ∧ (∃ w', (op [([102], .file ⟨0o644, 8, .root⟩ [104])]).run w
        = .error (.shortWrite (.ofText "/d/f") 2 1) w')
      ∧ ∃ w', (op []).run w = .error (.io (.os .noEntry)) w' := by
  intro looked fs op w
  have hadmits : Admits w (.ofText "/") (.ofText "/d/f") looked [100, 47, 102] .file :=
    ⟨⟨by decide, rfl, by decide, fun _ => by decide⟩, by decide, by decide⟩
  have habove : parentsBelow (.ofText "/d/f") (.ofText "/") = [.ofText "/d"] := by decide
  have hparents : ∀ now, ∀ q ∈ parentsBelow (.ofText "/d/f") (.ofText "/"),
      ∃ k, (fs now).lstat q = .ok k := by
    intro now q hq
    rw [habove] at hq
    rw [List.mem_singleton.mp hq]
    exact ⟨_, rfl⟩
  refine ⟨?_, ?_, ?_⟩
  · obtain ⟨above, -, -, hgrown, -⟩ :=
      changed_file (.inr (rfl : op [([102], .file ⟨0o644, 8, .root⟩ [104, 105, 106])] = _))
        hadmits rfl (hparents _)
    obtain ⟨w', hrun, hmembers, -⟩ := hgrown [104, 105, 106] rfl (by decide)
    exact ⟨_, w', hrun, by rw [hmembers, List.getLast?_concat]; rfl⟩
  · obtain ⟨above, -, -, -, hshort, -⟩ :=
      changed_file (.inr (rfl : op [([102], .file ⟨0o644, 8, .root⟩ [104])] = _)) hadmits rfl
        (hparents _)
    obtain ⟨w', hrun, -⟩ := hshort [104] rfl (by decide)
    exact ⟨w', hrun⟩
  · obtain ⟨above, -, -, -, -, hgone⟩ :=
      changed_file (.inr (rfl : op [] = _)) hadmits rfl (hparents _)
    obtain ⟨w', hrun, -⟩ := hgone .noEntry rfl
    exact ⟨w', hrun⟩

end DeployClient.Archive
