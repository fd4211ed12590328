import DeployClient.FileSystem.Walk
import DeployClient.Ignore.Rule

/-!
Why an archive could not be made.
-/

namespace DeployClient.Archive

inductive Error where
  | emptyPaths
  | workingDir (error : OsError)
  | ignoreFile (file : Path) (error : IoError)
  | ignorePatterns (error : Ignore.LineError)
  | io (error : IoError)
  | walk (error : WalkError)
  | outsideBase
  | shortWrite (path : Path) (expected written : Nat)
  | nothingArchived
deriving DecidableEq, Inhabited

def Error.message : Error → String
  | .emptyPaths => "paths cannot be empty"
  | .workingDir e => s!"failed to get the current directory: {e.message}"
  | .ignoreFile file e => s!"failed to read ignore file \"{file.display}\": {e.message}"
  | .ignorePatterns e => s!"failed to compile all ignore patterns: {e.message}"
  | .io e => e.message
  | .walk e => e.message
  | .outsideBase => "prefix not found"
  | .shortWrite path expected written =>
    s!"short write while archiving \"{path.display}\": expected {expected} bytes, "
      ++ s!"copied {written}"
  | .nothingArchived => "missing files to archive"

end DeployClient.Archive
