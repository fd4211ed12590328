import DeployClient.Archive.Error
import DeployClient.Ignore.Patterns
import DeployClient.Log
import DeployClient.Text.Lines

/-!
Reading ignore files. A file that is not there is skipped; one that cannot be read is an
error.
-/

namespace DeployClient.Ignore

/-- What became of the ignore files: the lines or the failure, and the files announced. -/
structure Reading where
  lines : Except Archive.Error (List String)
  announced : List Path

def readFiles (fs : FileSystem) (root : Path) : List Path → Reading
  | [] => ⟨.ok [], []⟩
  | file :: rest =>
    match fs.readText (root.join file) with
    | .ok text =>
      let others := readFiles fs root rest
      ⟨others.lines.map (Text.textLines text ++ ·), file :: others.announced⟩
    | .error e =>
      if e.isNotFound then readFiles fs root rest else ⟨.error (.ignoreFile file e), []⟩

/-- Compiles the lines of all files that are there, and tells which they are. -/
def load (fs : FileSystem) (root : Path) (files : List Path) :
    Except Archive.Error Patterns × List Note :=
  let reading := readFiles fs root files
  let announced := reading.announced.map fun f => Note.diagnostic (.usingPatterns f)
  match reading.lines with
  | .error e => (.error e, announced)
  | .ok lines =>
    ((Patterns.compile root lines).mapError .ignorePatterns,
      announced ++ [.event (.compilingPatterns lines.length)])

end DeployClient.Ignore
