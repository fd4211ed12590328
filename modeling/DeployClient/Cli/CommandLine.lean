import DeployClient.Cli.Parser
import DeployClient.Commands.ArchiveFiles
import DeployClient.Commands.BuildImage
import DeployClient.Commands.Deploy
import DeployClient.Commands.Login

/-!
The commands of the program, and what arguments they are called with.

In each list of options the one for the configuration file stands where its letter puts it:
after the first option of the command if that has a smaller letter.
-/

namespace DeployClient.Cli

inductive Command where
  | login (l : Login)
  | archive (a : ArchiveFiles)
  | build (b : BuildImage)
  | deploy (d : Deploy)
deriving DecidableEq, Inhabited

structure CommandLine where
  configFile : Option Path
  command : Command
deriving DecidableEq, Inhabited

namespace CommandLine

def programName : String := "paas"

def versionLine : String := programName ++ " 0.1.0"

/-! ### Options -/

def required (name : String) (short : Char) (about : String) : Parameter :=
  ⟨name, some short, .set .text, true, about, none⟩

def optional (name : String) (short : Char) (kind : ValueKind) (about : String) : Parameter :=
  ⟨name, some short, .set kind, false, about, none⟩

def paths (required : Bool) (about : String) : Parameter :=
  ⟨"paths", none, .append .path, required, about, none⟩

def configFileOption : Parameter :=
  optional "config-file" 'c' .path
    "Configuration file path, defaults to \x60~/.paas/config.toml\x60"

def filesOnly : Parameter :=
  ⟨"files-only", some 'f', .switch, false,
    "Store every file by its base name and skip directory entries", none⟩

def appOption : Parameter := required "app" 'a' "Application name"

/-! ### Commands -/

def login : Spec :=
  { name := "login"
    about := "Store the API server address and the authentication token"
    options := [configFileOption, required "token" 't' "Authentication token", Spec.helpOption]
    positionals :=
      [⟨"target", none, .set .text, true,
        "API server address, for example \x60https://paas.example.com\x60", none⟩]
    subcommands := [] }

def archive : Spec :=
  { name := "archive"
    about := "Create a deployment archive locally, without uploading it"
    options :=
      [configFileOption,
        { optional "output" 'o' .path "Path where to write the gzip-compressed tar archive" with
          fallback := some ArchiveFiles.defaultOutput },
        filesOnly,
        ⟨"ignore-file", some 'i', .append .path, false,
          "Files with patterns used to exclude entries, defaults to \x60.paasignore\x60", none⟩,
        Spec.helpOption]
    positionals := [paths true "Files and directories to archive"]
    subcommands := [] }

def build : Spec :=
  { name := "build"
    about := "Build an application image without deploying it"
    options :=
      [appOption, configFileOption, required "tag" 't' "Image tag", filesOnly, Spec.helpOption]
    positionals := [paths true "Files and directories to build from"]
    subcommands := [] }

def deploy : Spec :=
  { name := "deploy"
    about := "Deploy an application from files, a container file or an image"
    options :=
      [appOption, configFileOption,
        optional "image" 'i' .text "Container image to deploy instead of local files",
        optional "message" 'm' .text "Deploy message",
        optional "dockerfile" 'd' .path "Container file, or a directory to look for one in",
        filesOnly, Spec.helpOption]
    positionals := [paths false "Files and directories to deploy"]
    subcommands := [] }

def app : Spec :=
  { name := "app"
    about := "Application management"
    options := [configFileOption, Spec.helpOption]
    positionals := []
    subcommands := [build, deploy] }

def program : Spec :=
  { name := programName
    about := "CLI configuration"
    options := [configFileOption, Spec.helpOption, Spec.versionOption]
    positionals := []
    subcommands := [login, archive, app] }

/-! ### Commands from what was given -/

def loginOf? (l : Scope) : Option Login := do
  return { target := ← l.text? "target", token := ← l.text? "token" }

def archiveOf (l : Scope) : ArchiveFiles :=
  { output := (l.path? "output").getD (Path.ofText ArchiveFiles.defaultOutput)
    filesOnly := l.isGiven "files-only"
    ignoreFiles := l.pathsOf "ignore-file"
    paths := l.pathsOf "paths" }

def buildOf? (l : Scope) : Option BuildImage := do
  return { app := ← l.text? "app", tag := ← l.text? "tag", filesOnly := l.isGiven "files-only",
           paths := l.pathsOf "paths" }

def deployOf? (l : Scope) : Option Deploy := do
  return { app := ← l.text? "app", image := l.text? "image", message := l.text? "message",
           containerFile := l.path? "dockerfile", filesOnly := l.isGiven "files-only",
           paths := l.pathsOf "paths" }

def commandOf? (l : Scope) : Option Command :=
  match l.spec.name with
  | "login" => (loginOf? l).map .login
  | "archive" => some (.archive (archiveOf l))
  | "build" => (buildOf? l).map .build
  | "deploy" => (deployOf? l).map .deploy
  | _ => none

/-- The configuration file may be named in each scope; the innermost counts. -/
def parse (args : List Bytes) : Except UsageError CommandLine := do
  let scopes ← Cli.parse program args
  match scopes.head?.bind commandOf? with
  | some command => return ⟨scopes.findSome? fun l => l.path? "config-file", command⟩
  | none => throw .missingArgument

end CommandLine

end DeployClient.Cli
