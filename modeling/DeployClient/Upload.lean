import DeployClient.Archive.Build
import DeployClient.ByteSize
import DeployClient.Session
import DeployClient.Settings.Config
import DeployClient.Text.Lines

/-!
Uploading an archive, and following what the server writes about it.

An application is looked up before anything is sent. An operation has succeeded if what the
server writes ends with a line that says so.
-/

namespace DeployClient.Upload

open Http (Field Part Reading Reply Request)
open Settings (Config)

inductive Error where
  | io (error : IoError)
  | http (error : Http.Error)
  | config (error : Settings.Error)
  | archive (error : Archive.Error)
  | aborted
deriving DecidableEq, Inhabited

def Error.message : Error → String
  | .io e => e.message
  | .http e => e.message
  | .config e => e.message
  | .archive e => s!"unable to create archive: {e.message}"
  | .aborted => "command aborted, the server did not confirm the operation"

/-! ### Following a reply -/

def successMarker : Bytes := Bytes.ofText "\nOK\n"

/-- The end of what has been read, as long as the marker. -/
def keepTail (tail data : Bytes) : Bytes :=
  (tail ++ data).drop ((tail ++ data).length - successMarker.length)

/-- What was written out of a reply, and how reading it ended: whether the marker came last. -/
structure Following where
  written : Bytes
  result : Except IoError Bool

def follow (tail : Bytes) : List Reading → Following
  | [] => ⟨[], .ok (tail = successMarker)⟩
  | .interrupted :: rest => follow tail rest
  | .failed e :: _ => ⟨[], .error e⟩
  | .data bytes :: rest =>
    let f := follow (keepTail tail bytes) rest
    ⟨bytes ++ f.written, f.result⟩

def receive (reply : Reply) : Action Error Unit := do
  let f := follow [] reply.content
  Action.print f.written
  match f.result with
  | .error e => throw (.io e)
  | .ok false => throw .aborted
  | .ok true => return ()

/-! ### Requests -/

def prepare (method : Http.Method) (address : Except Settings.Error String) (config : Config)
    (body : Http.Body) : Action Error (Option Request) := do
  let address ← (Action.ofExcept address).wrap .config
  let token ← (Action.ofExcept config.requireToken).wrap .config
  return Request.prepare? method address token body

def exchange (request : Option Request) : Action Error Reply :=
  match request with
  | some r => (Action.exchange r).wrap .http
  | none => throw (.http .unreachable)

def applicationPath (app : String) : String := "/apps/" ++ app

def ensureAppExists (config : Config) (app : String) : Action Error Unit := do
  Action.say s!"Looking up application {app}..."
  let _ ← exchange (← prepare .get (config.url (applicationPath app)) config .empty)

def send (request : Option Request) : Action Error Unit := do
  let reply ← exchange request
  Action.event (.uploadAccepted (Http.Status.text reply.status))
  receive reply

/-! ### Archives -/

def createArchive (filesOnly : Bool) (paths : List Path) (workingDir : Option Path) :
    Action Error Bytes := do
  Action.say "Archiving..."
  let options := { Archive.Options.forUpload with workingDir := workingDir }
  let out := Archive.build (← get).fs filesOnly paths options
  Action.tell out.notes
  match out.result with
  | .error e => throw (.archive e)
  | .ok () => return out.received.getD []

def archiveName : String := "archive.tar.gz"

def sizeMessage (size : Nat) : String := s!"Uploading files ({ByteSize.text size})..."

def attachArchive (archive : Bytes) : Action Error Part := do
  Action.say (sizeMessage archive.length)
  Action.event (.uploadingArchive archive.length)
  return ⟨"file", .file archiveName "application/gzip" archive⟩

def textPart (name text : String) : Part := ⟨name, .text text⟩

end DeployClient.Upload
