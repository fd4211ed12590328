import DeployClient.ContainerFile
import DeployClient.Upload

/-!
Deploying an application: from an image, or from files, with or without a container file.
-/

namespace DeployClient

structure Deploy where
  app : String
  image : Option String
  message : Option String
  containerFile : Option Path
  filesOnly : Bool
  paths : List Path
deriving DecidableEq, Inhabited

namespace Deploy

inductive Error where
  | containerFile (error : ContainerFile.Error)
  | upload (error : Upload.Error)
  | conflictingSources
  | nothingToDeploy
deriving DecidableEq, Inhabited

def Error.message : Error → String
  | .containerFile e => e.message
  | .upload e => e.message
  | .conflictingSources => "you can't deploy files and docker image at the same time"
  | .nothingToDeploy =>
    "you should provide at least one file, a container file or a docker image to deploy"

inductive Source where
  | image (name : String)
  | files (containerFile : Option Path) (paths : List Path)
deriving DecidableEq, Inhabited

def source (d : Deploy) : Except Error Source :=
  match d.image, d.containerFile, d.paths with
  | some image, none, [] => .ok (.image image)
  | some _, _, _ => .error .conflictingSources
  | none, none, [] => .error .nothingToDeploy
  | none, containerFile, paths => .ok (.files containerFile paths)

def address (d : Deploy) (config : Settings.Config) : Except Settings.Error String :=
  config.url (Upload.applicationPath d.app ++ "/deploy")

def messageFields (d : Deploy) : List Http.Field := d.message.toList.map fun m => ("message", m)

def imageFields (d : Deploy) (image : String) : List Http.Field :=
  [("origin", "image"), ("image", image)] ++ d.messageFields

def originFields : Option ContainerFile → List Http.Field
  | some c => [("origin", "dockerfile"), ("dockerfile", c.contents)]
  | none => [("origin", "app-deploy")]

def fileFields (d : Deploy) (c : Option ContainerFile) : List Http.Field :=
  originFields c ++ d.messageFields

/-- Without paths, the directory of the container file is deployed. -/
def deployedPaths (c : Option ContainerFile) (paths : List Path) : List Path :=
  match c, paths with
  | some c, [] => [c.contextDir]
  | _, paths => paths

def resolveContainerFile (d : Deploy) : Option Path → Action Error (Option ContainerFile)
  | none => return none
  | some path => do
    let (result, notes) := ContainerFile.resolve (← get).fs d.app path
    Action.tell notes
    let c ← (Action.ofExcept result).wrap .containerFile
    return some c

def deployImage (d : Deploy) (config : Settings.Config) (image : String) :
    Action Upload.Error Unit := do
  let request ← Upload.prepare .post (d.address config) config (.fields (d.imageFields image))
  Action.event (.deployingImage image)
  Action.say "Deploying image..."
  Upload.send request

def deployFiles (d : Deploy) (config : Settings.Config) (c : Option ContainerFile)
    (paths : List Path) : Action Upload.Error Unit := do
  let archive ← Upload.createArchive d.filesOnly (deployedPaths c paths) none
  let file ← Upload.attachArchive archive
  let texts := (d.fileFields c).map fun f => Upload.textPart f.1 f.2
  Upload.send (← Upload.prepare .post (d.address config) config (.parts (texts ++ [file])))

def run (d : Deploy) (config : Settings.Config) : Action Error Unit := do
  let source ← Action.ofExcept d.source
  (Upload.ensureAppExists config d.app).wrap .upload
  match source with
  | .image image => (d.deployImage config image).wrap .upload
  | .files containerFile paths =>
    let c ← d.resolveContainerFile containerFile
    (d.deployFiles config c paths).wrap .upload

end Deploy

end DeployClient
