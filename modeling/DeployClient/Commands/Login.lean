import DeployClient.Session
import DeployClient.Settings.Config
import DeployClient.Url.Parser

/-!
Logging in: the address of the server and the token are checked and stored.
-/

namespace DeployClient

structure Login where
  target : String
  token : String
deriving DecidableEq, Inhabited

namespace Login

inductive Error where
  | config (error : Settings.Error)
  | invalidTarget (error : Url.ParseError)
  | unsupportedScheme (scheme : String)
deriving DecidableEq, Inhabited

def Error.message : Error → String
  | .config e => e.message
  | .invalidTarget e => s!"invalid target address: {e.message}"
  | .unsupportedScheme scheme => s!"unsupported target scheme: {scheme}"

def checkTarget (target : String) : Except Error Url :=
  match Url.parse target with
  | .error e => .error (.invalidTarget e)
  | .ok (.foreign scheme) => .error (.unsupportedScheme (String.ofList scheme))
  | .ok (.web url) =>
    if url.isHttp then .ok url else .error (.unsupportedScheme (String.ofList url.scheme))

def run (l : Login) (configPath : Path) : Action Error Unit := do
  let url ← Action.ofExcept (checkTarget l.target)
  let (result, fs) := Settings.writeCredentials (← get).fs configPath l.target l.token
  modify fun s => { s with fs := fs }
  (Action.ofExcept result).wrap .config
  Action.event (.credentialsStored url.text)
  Action.printLine s!"Logged in to {l.target}."

end Login

end DeployClient
