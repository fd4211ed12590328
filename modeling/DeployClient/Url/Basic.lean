import DeployClient.Url.Host

/-!
Addresses of resources, taken apart.

User name, password, path, query and fragment are held as they are written, that is encoded.
The path is a list of segments; it has at least one, which may be empty.
-/

namespace DeployClient

structure Url where
  scheme : List Char
  username : List Char
  password : List Char
  host : Url.Host
  /-- There is none if it is the usual one of the scheme. -/
  portNumber : Option Nat
  path : List (List Char)
  query : Option (List Char)
  fragment : Option (List Char)
deriving DecidableEq, Inhabited

namespace Url

def userinfo (u : Url) : List Char :=
  let password := if u.password.isEmpty then [] else ':' :: u.password
  if u.username.isEmpty && u.password.isEmpty then [] else u.username ++ password ++ ['@']

def numberText (u : Url) : List Char :=
  match u.portNumber with
  | some n => ':' :: Nat.toDigits 10 n
  | none => []

def pathText (u : Url) : List Char := u.path.flatMap ('/' :: ·)

def queryText (u : Url) : List Char :=
  match u.query with
  | some q => '?' :: q
  | none => []

def fragmentText (u : Url) : List Char :=
  match u.fragment with
  | some f => '#' :: f
  | none => []

def text (u : Url) : String :=
  String.ofList (u.scheme ++ "://".toList ++ u.userinfo ++ u.host.text ++ u.numberText
    ++ u.pathText ++ u.queryText ++ u.fragmentText)

/-- What a server is asked for. -/
def resource (u : Url) : String := String.ofList (u.pathText ++ u.queryText)

/-- The address without the name and the password of a user. -/
def anonymous (u : Url) : Url := { u with username := [], password := [] }

/-- The schemes that share the form of web addresses, with the numbers that are usual for them. -/
def webSchemes : List (String × Nat) :=
  [("http", 80), ("https", 443), ("ws", 80), ("wss", 443), ("ftp", 21)]

def usualPortNumber? (scheme : List Char) : Option Nat :=
  (webSchemes.find? fun e => e.1.toList = scheme).map Prod.snd

/-- The number that a connection is made at. -/
def effectivePortNumber (u : Url) : Nat := (u.portNumber <|> usualPortNumber? u.scheme).getD 0

def isHttp (u : Url) : Bool := u.scheme = "http".toList || u.scheme = "https".toList

end Url

end DeployClient
