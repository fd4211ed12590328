import DeployClient.Program

/-!
The command line. It takes a picture of the files that the arguments can lead to, runs the
program on it, and writes back the files that the program has changed.

Links are seen as the files that they lead to, and links to directories are left out. Owners and
permissions are not seen: in the picture the process may do everything. There is no connection to
a server here, so a request finds nobody.
-/

namespace DeployClient.Main

/-- Adds a node with the directories above it. -/
def place (fs : FileSystem) (p : Path) (n : Node) : FileSystem :=
  match ((p.parent?.map fs.makeDirectories).getD (.ok fs)) with
  | .error _ => fs
  | .ok fs =>
    match fs.resolve .inspect p with
    | .ok (.free parent name) => { fs with root := fs.root.put parent name n }
    | _ => fs

/-- The file system with what a name leads to, which may be nothing. -/
partial def picture (fs : FileSystem) (name : String) : IO FileSystem := do
  let there := (← IO.currentDir) / name
  let p := Path.ofText there.toString
  if ← there.isDir then
    let mut fs := place fs p (.directory (fs.stamp 0o755) [])
    for e in ← there.readDir do
      let linked := (← e.path.symlinkMetadata).type matches .symlink
      if !(linked && (← e.path.isDir)) then fs ← picture fs e.path.toString
    return fs
  else if ← there.pathExists then
    let data ← IO.FS.readBinFile there
    let time := (← there.metadata).modified.sec
    return place fs p (.file ⟨0o644, time, .root⟩ data.toList)
  else return fs

def variableNames : List String := ["PAAS_TARGET", "PAAS_TOKEN", "PAAS_LOGGING_LEVEL"]

def environment : IO Settings.Environment := do
  let values ← variableNames.mapM fun name => return (name, ← IO.getEnv name)
  return values.filterMap fun (name, value) => value.map (name, ·)

/-- Nobody answers. -/
def nobody : Http.Network := ⟨.domain [], 0, fun _ => .dropped⟩

def writeBack (before after : FileSystem) : IO Unit := do
  for (p, n) in after.root.visits ⟨[Bytes.slash]⟩ do
    match n with
    | .file _ data =>
      if (before.read p).toOption ≠ some data then
        if let some parent := p.parent? then IO.FS.createDirAll parent.display
        IO.FS.writeBinFile p.display ⟨data.toArray⟩
    | _ => pure ()

end DeployClient.Main

open DeployClient in
def main (args : List String) : IO UInt32 := do
  let cwd := (← IO.currentDir).toString
  let home := (← IO.getEnv "HOME").getD "/"
  let homePath := Path.ofText home
  let root : Node := .directory ⟨0o755, 0, .root⟩ []
  let empty : FileSystem := ⟨root, FileSystem.steps (Bytes.ofText cwd), 0, .root⟩
  let names := [cwd, (Settings.Config.defaultPath homePath).display]
  let fs ← (names ++ args).foldlM Main.picture empty
  let around : Program.Surroundings := ⟨homePath, ← Main.environment⟩
  let outcome := Program.run around (args.map Bytes.ofText) (Session.new fs Main.nobody)
  Main.writeBack fs outcome.session.fs
  (← IO.getStdout).write ⟨outcome.output.toArray⟩
  (← IO.getStderr).write ⟨(outcome.errorOutput s!"{← IO.monoMsNow}").toArray⟩
  return UInt32.ofNat outcome.exitCode
