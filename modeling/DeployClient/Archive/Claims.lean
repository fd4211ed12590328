import DeployClient.Archive.Kind
import DeployClient.Path.Basic

/-!
The names that are taken in an archive. The first entry to claim a name keeps it.
-/

namespace DeployClient.Archive

structure Claimant where
  kind : Kind
  source : Path
deriving DecidableEq, Inhabited

structure Claims where
  taken : List (Bytes × Claimant)
deriving DecidableEq, Inhabited

namespace Claims

def empty : Claims := ⟨[]⟩

def holder? (c : Claims) (name : Bytes) : Option Claimant :=
  (c.taken.find? fun e => e.1 = name).map Prod.snd

/-- Adds the claim, unless the name has a holder. -/
def claim (c : Claims) (name : Bytes) (who : Claimant) : Claims :=
  match c.holder? name with
  | some _ => c
  | none => ⟨c.taken ++ [(name, who)]⟩

end Claims

end DeployClient.Archive
