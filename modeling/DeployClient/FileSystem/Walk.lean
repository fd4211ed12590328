import DeployClient.FileSystem.Basic

/-!
Visiting a directory and all that lies below it, in the byte order of the names: a directory
comes before its contents. Links are shown as links and not followed, except that a link
given as the root is entered if it leads to a directory. Each path is looked at once more when
its turn comes, which fails below directories whose path has grown too long or that may not be
searched. A directory that may not be listed is shown, and the walk ends there.
-/

namespace DeployClient

structure WalkError where
  path : Path
  error : OsError
deriving DecidableEq, Inhabited

def WalkError.message (e : WalkError) : String :=
  s!"IO error for operation on {e.path.display}: {e.error.message}"

abbrev Visit := Path × Node

namespace Node

/-- Parts in the byte order of the names they belong to. -/
def inNameOrder (parts : List (Bytes × List Visit)) : List Visit :=
  (parts.mergeSort fun a b => a.1 ≤ b.1).flatMap Prod.snd

mutual

/-- A node and all below it. -/
def visits (p : Path) : Node → List Visit
  | .directory s es => (p, .directory s es) :: inNameOrder (entryVisits p es)
  | .file s data => [(p, .file s data)]
  | .symlink s target => [(p, .symlink s target)]
  | .special s kind => [(p, .special s kind)]

def entryVisits (p : Path) : List (Bytes × Node) → List (Bytes × List Visit)
  | [] => []
  | (name, n) :: es => (name, visits (p.child name) n) :: entryVisits p es

end

end Node

namespace FileSystem

/-- All that lies at a path and below, as far as it is there. At a link that is what lies below
the node that it leads to. -/
def visits (fs : FileSystem) (root : Path) : Except WalkError (List Visit) :=
  match fs.lstat root with
  | .error e => .error ⟨root, e⟩
  | .ok (.symlink ..) =>
    match fs.stat root with
    | .error e => .error ⟨root, e⟩
    | .ok n => .ok (n.visits root)
  | .ok n => .ok (n.visits root)

/-- The entries of the node can be listed, if it has any. -/
def lists (fs : FileSystem) (n : Node) : Bool := !n.isDirectory || fs.allows .read n

end FileSystem

section

variable {ε σ : Type}

/-- Looks at one path after the other and adds up what the visitor returns; the first failure
of a look, of the visitor or of a listing ends the walk. -/
def FileSystem.visitAll (fs : FileSystem) (failed : WalkError → ε)
    (visit : Path → Node → EStateM ε σ Nat) : List Visit → EStateM ε σ Nat
  | [] => pure 0
  | (p, listed) :: rest =>
    match fs.lstat p with
    | .error e => throw (failed ⟨p, e⟩)
    | .ok n => do
      let added ← visit p n
      if fs.lists listed then
        let others ← fs.visitAll failed visit rest
        return added + others
      else throw (failed ⟨p, .permissionDenied⟩)

def FileSystem.walk (fs : FileSystem) (root : Path) (failed : WalkError → ε)
    (visit : Path → Node → EStateM ε σ Nat) : EStateM ε σ Nat :=
  match fs.visits root with
  | .error e => throw (failed e)
  | .ok vs => fs.visitAll failed visit vs

end

end DeployClient
