import DeployClient.Text.Blank
import DeployClient.Upload

/-!
Building an image of an application on the server.
-/

namespace DeployClient

structure BuildImage where
  app : String
  tag : String
  filesOnly : Bool
  paths : List Path
deriving DecidableEq, Inhabited

namespace BuildImage

inductive Error where
  | upload (error : Upload.Error)
  | emptyTag
deriving DecidableEq, Inhabited

def Error.message : Error → String
  | .upload e => e.message
  | .emptyTag => "image tag cannot be empty"

/-- The version of the endpoint that builds images. -/
def endpointVersion : String := "1.5"

def perform (b : BuildImage) (config : Settings.Config) : Action Upload.Error Unit := do
  Upload.ensureAppExists config b.app
  let archive ← Upload.createArchive b.filesOnly b.paths none
  let file ← Upload.attachArchive archive
  let address := config.versionedUrl endpointVersion (Upload.applicationPath b.app ++ "/build")
  Upload.send (← Upload.prepare .post address config (.parts [Upload.textPart "tag" b.tag, file]))

def run (b : BuildImage) (config : Settings.Config) : Action Error Unit := do
  if (Text.trim b.tag.toList).isEmpty then throw .emptyTag
  (b.perform config).wrap .upload

end BuildImage

end DeployClient
