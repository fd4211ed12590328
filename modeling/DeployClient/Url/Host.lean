import DeployClient.Url.Address
import DeployClient.Url.DomainName

/-!
The host of an address: a domain name or an Internet address.
-/

namespace DeployClient.Url

/-- What is wrong with a text that is no address. -/
inductive ParseError where
  | noScheme
  | emptyHost
  | invalidPortNumber
  | invalidIpv4
  | invalidIpv6
  | invalidDomain
  | invalidCharacter
deriving DecidableEq, Inhabited

def ParseError.message : ParseError → String
  | .noScheme => "relative URL without a base"
  | .emptyHost => "empty host"
  | .invalidPortNumber => "invalid port number"
  | .invalidIpv4 => "invalid IPv4 address"
  | .invalidIpv6 => "invalid IPv6 address"
  | .invalidDomain => "invalid international domain name"
  | .invalidCharacter => "invalid domain character"

inductive Host where
  | domain (name : List Char)
  | ipv4 (address : Nat)
  | ipv6 (pieces : List Nat)
deriving DecidableEq, Inhabited

namespace Host

def text : Host → List Char
  | .domain name => name
  | .ipv4 address => Ipv4.text address
  | .ipv6 pieces => '[' :: Ipv6.text pieces ++ [']']

def bracketed (cs : List Char) : Except ParseError Host :=
  match cs.getLast?, Ipv6.read? (cs.drop 1).dropLast with
  | some ']', some pieces => .ok (.ipv6 pieces)
  | _, _ => .error .invalidIpv6

/-- A name that ends with a number is an address or nothing. -/
def ofName (name : List Char) : Except ParseError Host :=
  if name.isEmpty then .error .emptyHost
  else if Ipv4.isMeant name then
    match Ipv4.read? name with
    | some address => .ok (.ipv4 address)
    | none => .error .invalidIpv4
  else .ok (.domain name)

def parse (cs : List Char) : Except ParseError Host :=
  if cs.isEmpty then .error .emptyHost
  else if cs.head? = some '[' then bracketed cs
  else
    match DomainName.ofBytes? (percentDecode cs) with
    | none => .error .invalidDomain
    | some name => ofName name

def forbiddenCharacters : List Char := "\x00 #/:<>?@[\\]^|".toList

/-- Under a scheme of its own kind a host is any text without these characters. -/
def checkForeign (cs : List Char) : Except ParseError Unit :=
  if cs.head? = some '[' then (bracketed cs).map fun _ => ()
  else if cs.any forbiddenCharacters.contains then .error .invalidCharacter
  else .ok ()

end Host

end DeployClient.Url
