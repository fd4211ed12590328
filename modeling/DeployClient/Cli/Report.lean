import DeployClient.Cli.CommandLine

/-!
Reports of failures: the failure as it is met outermost, and below it what lies behind it.

An error that passes another one on repeats its message, so a chain of causes says the same
several times where nothing is added.
-/

namespace DeployClient

/-! ### Chains of causes, outermost first -/

def Archive.Error.chain (e : Archive.Error) : List String :=
  e.message ::
    match e with
    | .workingDir cause => [cause.message]
    | .ignoreFile _ cause => [cause.message]
    | .ignorePatterns cause => [cause.message]
    | .io cause => [cause.message]
    | .walk cause => [cause.message, cause.error.message]
    | .outsideBase => [e.message]
    | _ => []

def Settings.Error.chain (e : Settings.Error) : List String :=
  e.message ::
    match e with
    | .io cause => [cause.message]
    | .notLoggedIn => []
    | _ => [e.message]

def ContainerFile.Error.chain (e : ContainerFile.Error) : List String :=
  e.message ::
    match e with
    | .io cause => [cause.message]
    | _ => []

def Upload.Error.chain (e : Upload.Error) : List String :=
  e.message ::
    match e with
    | .io cause => [cause.message]
    | .http cause => [cause.message]
    | .config cause => cause.chain
    | .archive cause => cause.chain
    | .aborted => []

def Login.Error.chain (e : Login.Error) : List String :=
  e.message ::
    match e with
    | .config cause => cause.chain
    | _ => []

def ArchiveFiles.Error.chain (e : ArchiveFiles.Error) : List String :=
  e.message ::
    match e with
    | .io cause => [cause.message]
    | .archive cause => cause.chain

def BuildImage.Error.chain (e : BuildImage.Error) : List String :=
  e.message ::
    match e with
    | .upload cause => cause.chain
    | .emptyTag => []

def Deploy.Error.chain (e : Deploy.Error) : List String :=
  e.message ::
    match e with
    | .containerFile cause => cause.chain
    | .upload cause => cause.chain
    | _ => []

namespace Cli.Report

/-- The lines of a text, the first behind a mark and the others below its end. -/
def indented (mark : String) (width : Nat) (text : String) : String :=
  let indent := String.ofList ('\n' :: List.replicate width ' ')
  mark ++ indent.intercalate ((text.toList.splitOn '\n').map String.ofList)

def leftPadded (width : Nat) (s : String) : String :=
  String.ofList (List.replicate (width - s.length) ' ') ++ s

/-- A single cause is not numbered. -/
def causes : List String → List String
  | [] => []
  | [cause] => ["", "Caused by:", indented "    " 4 cause]
  | several =>
    ["", "Caused by:"] ++ several.mapIdx fun i cause =>
      indented (leftPadded 5 (toString i) ++ ": ") 7 cause

def text (chain : List String) : String :=
  match chain with
  | [] => "Error: "
  | outermost :: rest => "\n".intercalate (("Error: " ++ outermost) :: causes rest)

end Cli.Report

end DeployClient
