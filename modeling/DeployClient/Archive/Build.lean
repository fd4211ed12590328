import DeployClient.Archive.Writer
import DeployClient.Gzip
import DeployClient.Ignore.Files
import DeployClient.Path.Containment

/-!
Making an archive of some paths inside the working directory.

The paths are taken in order. A directory is archived with all that lies below it; a single
directory becomes the root of the archive. What has been written when an error ends the work
is closed like a complete archive.
-/

namespace DeployClient.Archive

/-- The ignore file that is read when no other is named. -/
def defaultIgnoreFile : Path := Path.ofText ".paasignore"

structure Options where
  compression : Gzip.Level
  ignoreFiles : List Path
  workingDir : Option Path
  sinkFault : Option IoError
  mute : Bool
deriving Inhabited

namespace Options

def plain : Options := ⟨Gzip.best, [], none, none, false⟩

def forUpload : Options := { plain with ignoreFiles := [defaultIgnoreFile] }

end Options

/-- What is left when the work is done: how it ended, the bytes that the destination has
received if it has received any, and what was told on the way. -/
structure Outcome where
  result : Except Error Unit
  received : Option Bytes
  notes : List Note

def workingDirectory (fs : FileSystem) : Option Path → Except Error Path
  | some dir =>
    if dir.isAbsolute then .ok dir.normalize
    else
      match fs.currentDir with
      | .ok cwd => .ok (cwd.join dir).normalize
      | .error e => .error (.workingDir e)
  | none =>
    match fs.currentDir with
    | .ok cwd => .ok cwd.normalize
    | .error e => .error (.workingDir e)

/-- Archives what a path leads to. -/
def archiveInput (fs : FileSystem) (workingDir : Path) (single : Bool) (path : Path) :
    Writing Nat := do
  match Path.resolveWithin workingDir path with
  | none =>
    report (.outsideDirectory path)
    return 0
  | some absolute =>
    let node ← ofOs (fs.lstat absolute)
    if node.isDirectory then
      let base := if single then absolute else workingDir
      event (.archivingDirectory absolute base)
      fs.walk absolute .walk fun source node => addPath fs source base node false
    else addFile fs absolute workingDir node

def archiveInputs (fs : FileSystem) (workingDir : Path) (single : Bool) :
    List Path → Writing Nat
  | [] => pure 0
  | path :: rest => do
    let added ← archiveInput fs workingDir single path
    let others ← archiveInputs fs workingDir single rest
    return added + others

/-- Closes the archive. One without entries is an error. -/
def finish (added : Nat) : Writing Unit := do
  match (← get).sinkFault with
  | some e => throw (.io e)
  | none =>
    event (.archiveCreated added)
    if added = 0 then throw .nothingArchived

/-- The compressed archive as it stands in the destination. -/
def Writer.bytes (w : Writer) (level : Gzip.Level) : Option Bytes :=
  match w.sinkFault with
  | some _ => none
  | none => some (Gzip.encode level (Tar.encode w.members))

/-- What an archive is made with: the working directory and a writer without entries. A failure
comes with what was told before it. -/
def prepare (fs : FileSystem) (filesOnly : Bool) (paths : List Path) (options : Options) :
    Except (Error × List Note) (Path × Writer) :=
  if paths.isEmpty then .error (.emptyPaths, [])
  else
    match workingDirectory fs options.workingDir with
    | .error e => .error (e, [])
    | .ok dir =>
      let (patterns, notes) := Ignore.load fs dir options.ignoreFiles
      let heard := notes.filter fun n => !options.mute || n.diagnostic?.isNone
      match patterns with
      | .error e => .error (e, heard)
      | .ok patterns =>
        .ok (dir, { Writer.new patterns filesOnly with
          sinkFault := options.sinkFault, mute := options.mute, notes := heard })

/-- Archives all paths and closes the archive. -/
def archiveAll (fs : FileSystem) (workingDir : Path) (paths : List Path) : Writing Unit :=
  archiveInputs fs workingDir (paths.length = 1) paths >>= finish

def build (fs : FileSystem) (filesOnly : Bool) (paths : List Path) (options : Options) :
    Outcome :=
  match prepare fs filesOnly paths options with
  | .error (e, notes) => ⟨.error e, none, notes⟩
  | .ok (dir, w) =>
    match archiveAll fs dir paths w with
    | .ok _ w => ⟨.ok (), w.bytes options.compression, w.notes⟩
    | .error e w => ⟨.error e, w.bytes options.compression, w.notes⟩

end DeployClient.Archive
