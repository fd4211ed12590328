import DeployClient.Archive.Build
import DeployClient.ByteSize
import DeployClient.Session

/-!
Making an archive on the spot. It is written to its place when it is complete, so that it is
never among the files that it holds.
-/

namespace DeployClient

structure ArchiveFiles where
  output : Path
  filesOnly : Bool
  ignoreFiles : List Path
  paths : List Path
deriving DecidableEq, Inhabited

namespace ArchiveFiles

inductive Error where
  | io (error : IoError)
  | archive (error : Archive.Error)
deriving DecidableEq, Inhabited

def Error.message : Error → String
  | .io e => e.message
  | .archive e => s!"unable to create archive: {e.message}"

def defaultOutput : String := "archive.tar.gz"

/-- Only the user may read and write the archive. -/
def outputPermissions : Nat := 0o600

def options (a : ArchiveFiles) : Archive.Options :=
  let files := if a.ignoreFiles.isEmpty then [Archive.defaultIgnoreFile] else a.ignoreFiles
  { Archive.Options.plain with ignoreFiles := files }

def report (a : ArchiveFiles) (archive : Bytes) : String :=
  s!"Archive written to {a.output.display} ({ByteSize.text archive.length})."

def run (a : ArchiveFiles) : Action Error Unit := do
  let fs := (← get).fs
  let out := Archive.build fs a.filesOnly a.paths a.options
  Action.tell out.notes
  match out.result with
  | .error e => throw (.archive e)
  | .ok () =>
    let archive := out.received.getD []
    let (written, after) := fs.write a.output archive outputPermissions true
    modify fun s => { s with fs := after }
    match written with
    | .error e => throw (.io (.os e))
    | .ok () => Action.printLine (a.report archive)

end ArchiveFiles

end DeployClient
