import DeployClient.Proofs.Mirrors

/-!
The archive of files alone, compared with the one that keeps directories.

The one is the other without its directories, with names cut to their last part, and with the
first entry of each such name. A file that may not be read is opened by neither of them where its
last name is taken, and by the other one wherever its name is free.
-/

namespace DeployClient.Archive

open Tar (Member)

variable {fs : FileSystem} {paths : List Path} {options : Options}

/-- The second of the two files may not be read. -/
example :
    let d (permissions : Nat) :=
      Node.directory ⟨0o755, 6, .root⟩ [([102], .file ⟨permissions, 5, .root⟩ [1])]
    let fs : FileSystem :=
      ⟨.directory ⟨0o755, 0, .root⟩ [([120], d 0o644), ([121], d 0)], [], 0, ⟨⟨1, 1⟩, []⟩⟩
    let paths := [Path.ofText "x", .ofText "y"]
    (build fs false paths .plain).result = .error .locked
      ∧ (build fs true paths .plain).result = .ok () := by decide +kernel

end DeployClient.Archive
