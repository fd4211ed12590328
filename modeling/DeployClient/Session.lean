import DeployClient.FileSystem.Basic
import DeployClient.Http.Network
import DeployClient.Log

/-!
The world that a command works in: the files, the network, and what has come of the work so
far.

Requests are remembered in the order in which they reached the server. What is printed goes to
the standard output; notes are events and diagnostics in the order of telling.
-/

namespace DeployClient

structure Session where
  fs : FileSystem
  network : Http.Network
  requests : List Http.Request
  printed : Bytes
  notes : List Note
  /-- What the spinner says. -/
  progress : String

abbrev Action (ε α : Type) := EStateM ε Session α

namespace Session

def new (fs : FileSystem) (network : Http.Network) : Session := ⟨fs, network, [], [], [], ""⟩

end Session

namespace Action

variable {ε δ α : Type}

def tell (notes : List Note) : Action ε Unit :=
  modify fun s => { s with notes := s.notes ++ notes }

def event (e : Event) : Action ε Unit := tell [.event e]

def print (data : Bytes) : Action ε Unit :=
  modify fun s => { s with printed := s.printed ++ data }

def printLine (line : String) : Action ε Unit :=
  print (Bytes.ofText line ++ [Bytes.newline])

def say (progress : String) : Action ε Unit :=
  modify fun s => { s with progress := progress }

def ofExcept : Except ε α → Action ε α
  | .ok a => pure a
  | .error e => throw e

/-- The action with its errors told in other words. -/
def wrap (f : ε → δ) (x : Action ε α) : Action δ α := x.adaptExcept f

/-- Asks the server, if it can be reached. -/
def exchange (r : Http.Request) : Action Http.Error Http.Reply := do
  let s ← get
  if !s.network.reaches r.url then throw .unreachable
  let asked := s.requests ++ [r]
  set { s with requests := asked }
  match s.network.answer asked with
  | .dropped => throw .unreachable
  | .reply reply =>
    if Http.Status.isError reply.status then throw (.status reply.status r.url)
    return reply

end Action

end DeployClient
