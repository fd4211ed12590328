import DeployClient.FileSystem.Basic
import DeployClient.Log
import DeployClient.Path.Naming

/-!
Finding the container file of an application.

A path to a file is taken as it is. In a directory the well-known names are tried, those that
name the application first.
-/

namespace DeployClient

structure ContainerFile where
  path : Path
  contents : String
deriving Inhabited

namespace ContainerFile

inductive Error where
  | io (error : IoError)
  | notFound (dir : Path)
  | invalidFileType (path : Path)
deriving DecidableEq, Inhabited

def Error.message : Error → String
  | .io e => e.message
  | .notFound dir => s!"container file not found in {dir.display}"
  | .invalidFileType path => s!"{path.display} is neither a file nor a directory"

/-- Most specific first. -/
def candidates (app : String) : List String :=
  ["Dockerfile." ++ app, "Containerfile." ++ app, "Dockerfile.paas", "Containerfile.paas",
    "Dockerfile", "Containerfile"]

def guess? (fs : FileSystem) (app : String) (dir : Path) : Option Path :=
  ((candidates app).map fun name => dir.join (Path.ofText name)).find? fs.isFile

def locate (fs : FileSystem) (app : String) (path : Path) : Except Error Path :=
  match fs.stat path with
  | .error e => .error (.io (.os e))
  | .ok n =>
    if n.isDirectory then
      match guess? fs app path with
      | some p => .ok p
      | none => .error (.notFound path)
    else if n.isFile then .ok path
    else .error (.invalidFileType path)

/-- The file with its contents, and what was told on the way. -/
def resolve (fs : FileSystem) (app : String) (path : Path) :
    Except Error ContainerFile × List Note :=
  match locate fs app path with
  | .error e => (.error e, [])
  | .ok p =>
    let notes := [Note.event (.usingContainerFile p)]
    match fs.readText p with
    | .ok text => (.ok ⟨p, text⟩, notes)
    | .error e => (.error (.io e), notes)

/-- The directory that holds the file. -/
def directoryOf (path : Path) : Path :=
  match path.parent? with
  | some parent => if parent.bytes = [] then ⟨baseName⟩ else parent
  | none => ⟨baseName⟩

def contextDir (c : ContainerFile) : Path := directoryOf c.path

end ContainerFile

end DeployClient
