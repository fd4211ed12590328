import DeployClient.Archive.Kind
import DeployClient.Path.Basic

/-!
What the program tells about its work: events, each of a level, and diagnostics, which are
meant for the user at any level.
-/

namespace DeployClient

inductive Level where
  | off
  | error
  | warn
  | info
  | debug
  | trace
deriving DecidableEq, Inhabited

namespace Level

def rank : Level → Nat
  | .off => 0
  | .error => 1
  | .warn => 2
  | .info => 3
  | .debug => 4
  | .trace => 5

def label : Level → String
  | .off => "OFF"
  | .error => "ERROR"
  | .warn => "WARN"
  | .info => "INFO"
  | .debug => "DEBUG"
  | .trace => "TRACE"

/-- A log at this level shows what is reported at the other. -/
def shows (limit l : Level) : Bool := l.rank ≤ limit.rank

/-- The level's name in columns of five. -/
def column (l : Level) : String :=
  String.ofList (List.replicate (5 - l.label.length) ' ') ++ l.label

end Level

inductive Event where
  | compilingPatterns (lines : Nat)
  | archivingDirectory (path base : Path)
  | skippingDuplicate (name : Bytes) (first duplicate : Path)
  | archived (name : Bytes) (kind : Archive.Kind) (size : Nat)
  | archiveCreated (entries : Nat)
  | usingContainerFile (path : Path)
  | deployingImage (image : String)
  | uploadingArchive (size : Nat)
  | uploadAccepted (status : String)
  | credentialsStored (target : String)
deriving DecidableEq, Inhabited

namespace Event

def level : Event → Level
  | .archiveCreated .. | .uploadingArchive .. | .credentialsStored .. => .info
  | _ => .debug

def text (e : Event) : String :=
  let shown := Text.Utf8.decodeLossy
  match e with
  | .compilingPatterns lines => s!"compiling ignore patterns lines={lines}"
  | .archivingDirectory path base =>
    s!"archiving directory path={path.display} base={base.display}"
  | .skippingDuplicate name first duplicate =>
    s!"skipping duplicate entry name={shown name} original={first.display} "
      ++ s!"duplicate={duplicate.display}"
  | .archived name kind size => s!"archived name={shown name} kind={kind.label} size={size}"
  | .archiveCreated entries => s!"archive created entries={entries}"
  | .usingContainerFile path => s!"using container file path={path.display}"
  | .deployingImage image => s!"deploying image image={image}"
  | .uploadingArchive size => s!"uploading archive size={size}"
  | .uploadAccepted status => s!"upload accepted status={status}"
  | .credentialsStored target => s!"credentials stored target={target}"

end Event

inductive Diagnostic where
  | usingPatterns (file : Path)
  | outsideDirectory (path : Path)
  | notUnicode (source : Path)
  | unsupportedType (name : Bytes)
  | ignored (name : Bytes)
  | duplicate (name : Bytes)
  | remark (text : String)
deriving DecidableEq, Inhabited

namespace Diagnostic

def message (d : Diagnostic) : String :=
  let shown := Text.Utf8.decodeLossy
  match d with
  | .usingPatterns file =>
    s!"Using pattern(s) from \"{file.display}\" to include/exclude files..."
  | .outsideDirectory path =>
    s!"WARNING: skipping file \"{path.display}\" since you cannot add files outside the "
      ++ "current directory"
  | .notUnicode source => s!"File {source.display} contains non-unicode symbols in path"
  | .unsupportedType name =>
    s!"WARNING: Skipping file \"{shown name}\" due to unsupported file type."
  | .ignored name =>
    s!"File \"{shown name}\" matches with some pattern provided in the ignore file... "
      ++ "skipping it."
  | .duplicate name =>
    s!"Skipping file \"{shown name}\" as it already exists in the current directory."
  | .remark text => text

/-- The diagnostic as it is written: a message and a line feed. -/
def written (d : Diagnostic) : Bytes := Bytes.ofText d.message ++ [Bytes.newline]

end Diagnostic

/-- One thing told, in the order of telling. -/
inductive Note where
  | event (e : Event)
  | diagnostic (d : Diagnostic)
deriving DecidableEq, Inhabited

namespace Note

def diagnostic? : Note → Option Diagnostic
  | .diagnostic d => some d
  | .event _ => none

def event? : Note → Option Event
  | .event e => some e
  | .diagnostic _ => none

end Note

end DeployClient
