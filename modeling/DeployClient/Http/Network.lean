import DeployClient.Http.Request
import DeployClient.Http.Status
import DeployClient.IoError

/-!
Servers as a client sees them: something that answers requests, piece by piece.

One server can be reached, at one host and one number, without encryption. What it answers may
depend on everything that it has been asked.
-/

namespace DeployClient.Http

/-- What one attempt to read from a reply gives. -/
inductive Reading where
  | data (bytes : Bytes)
  | interrupted
  | failed (error : IoError)
deriving DecidableEq, Inhabited

structure Reply where
  status : Nat
  readings : List Reading
deriving DecidableEq, Inhabited

def Reply.content (r : Reply) : List Reading := if Status.isEmpty r.status then [] else r.readings

inductive Answer where
  | reply (r : Reply)
  | dropped
deriving DecidableEq, Inhabited

structure Network where
  host : Url.Host
  portNumber : Nat
  /-- The answer to the last of these requests. -/
  answer : List Request → Answer

def Network.reaches (n : Network) (u : Url) : Bool :=
  u.scheme = "http".toList && u.host = n.host && u.effectivePortNumber = n.portNumber

/-- Why an exchange with a server came to nothing. -/
inductive Error where
  | unreachable
  | status (code : Nat) (url : Url)
deriving DecidableEq, Inhabited

def Error.message : Error → String
  | .unreachable => "error sending request"
  | .status code url =>
    let side := if Status.isClientError code then "client" else "server"
    s!"HTTP status {side} error ({Status.text code}) for url ({url.text})"

end DeployClient.Http
