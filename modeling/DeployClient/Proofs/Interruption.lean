import DeployClient.Proofs.GivenUp
import DeployClient.Proofs.GzipBlocks

/-!
What a run that is given up leaves in the destination.

A run ends early at the first input that cannot be looked at, or before it at a file among the
inputs that is let in and may not be read. The base does not depend on how far the run has come, and
an entry is written as a whole or not at all. So the stream is closed over the entries of the inputs
before that one, and above a file over the directories on the way to it.
-/

namespace DeployClient.Archive

open Tar (Member)

variable {fs : FileSystem} {dir p : Path} {input : Path} {inputs before after : List Path}
  {filesOnly single : Bool} {options : Options} {w w' v : Writer} {n : Node} {k : ℕ} {e : Error}
  {os : OsError}

/-- What is in the destination: both compression and archive are closed, and each entry is the
whole of a node as it stands, named below the base that all inputs call for. -/
structure Closed (fs : FileSystem) (dir : Path) (inputs : List Path) (w : Writer)
    (received : Option Bytes) (w' : Writer) : Prop where
  received : ∃ b, received = some b ∧ Gzip.decode? b = some (Tar.encode w'.members)
  closed : Tar.endBlocks <:+ Tar.encode w'.members
  whole : ∀ m ∈ w'.members, ∃ q n path, fs.lstat q = .ok n
    ∧ Path.nameBelow (baseOf fs dir inputs) q = .named path ∧ m.name = nameIn w.filesOnly path
    ∧ memberAs m.name n = some m
  readBack : (∀ p n, fs.lstat p = .ok n → Bounded n) →
    Tar.decode? (Tar.encode w'.members) = some (w'.members.map Member.stored)

/-- Operations that some of the inputs call for are operations of the run. -/
lemma called_of_subset (hfs : fs.root.isProper = true) (hdir : dir.IsNormal)
    (hsub : before ⊆ inputs) :
    ∀ op ∈ before.flatMap (inputOps fs dir (inputs.length = 1)), Called fs dir inputs op := by
  intro op hop
  obtain ⟨i, hi, hop⟩ := List.mem_flatMap.mp hop
  exact called_of_mem hfs hdir (List.mem_flatMap.mpr ⟨i, hsub hi, hop⟩)

/-- What operations of a run have written are nodes as they stand. -/
lemma Recorded.exists_memberAs {ops : List Op} {m : Member}
    (hops : ∀ op ∈ ops, Called fs dir inputs op) (h : Recorded ops w v m) :
    ∃ q n path, fs.lstat q = .ok n ∧ Path.nameBelow (baseOf fs dir inputs) q = .named path
      ∧ m.name = nameIn w.filesOnly path ∧ memberAs m.name n = some m := by
  obtain ⟨r, rfl, -, op, hop, hby⟩ := h
  have hmade : r.Made w.patterns w.filesOnly fs (baseOf fs dir inputs) →
      fs.lstat r.entry.source = .ok r.node → ∃ q n path, fs.lstat q = .ok n
        ∧ Path.nameBelow (baseOf fs dir inputs) q = .named path
        ∧ r.member.name = nameIn w.filesOnly path ∧ memberAs r.member.name n = some r.member := by
    intro hmade hl
    obtain ⟨path, hpass, hname⟩ := hmade.entryOf.passes
    exact ⟨_, _, path, hl, hpass.named, hname, hmade.memberAs hl⟩
  cases hops op hop with
  | path sighted candidate =>
    obtain ⟨hr, rfl, rfl⟩ := hby
    exact hmade hr sighted.lstat
  | file sighted given hn =>
    obtain ⟨hr, ⟨rfl, rfl⟩ | ⟨himplied, -⟩⟩ := hby
    · exact hmade hr sighted.lstat
    · exact hmade hr himplied.lstat
  | _ => exact hby.elim

end DeployClient.Archive
