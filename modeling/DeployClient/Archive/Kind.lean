import DeployClient.FileSystem.Node

/-!
The kinds of entries that an archive can hold.
-/

namespace DeployClient.Archive

inductive Kind where
  | file
  | directory
  | symlink
deriving DecidableEq, Inhabited

namespace Kind

/-- Sockets and pipes have no kind. -/
def ofNode? : Node → Option Kind
  | .file .. => some .file
  | .directory .. => some .directory
  | .symlink .. => some .symlink
  | .special .. => none

def label : Kind → String
  | .file => "File"
  | .directory => "Directory"
  | .symlink => "Symlink"

end Kind

end DeployClient.Archive
