import DeployClient.Url.Basic

/-!
Reading addresses.

Blanks at both ends and line breaks anywhere are left out. What remains is cut into a scheme,
an authority, a path, a query and a fragment, each of which ends at the first character that
cannot belong to it. Segments of one or two dots are followed while the path is read.
-/

namespace DeployClient.Url

/-- An address of the web, or one of another kind, of which only the scheme is known. -/
inductive Reference where
  | web (url : Url)
  | foreign (scheme : List Char)
deriving DecidableEq, Inhabited

def Reference.scheme : Reference → List Char
  | .web url => url.scheme
  | .foreign scheme => scheme

/-! ### Cutting -/

def isEdge (c : Char) : Bool := c.toNat ≤ 0x20

def isBreak (c : Char) : Bool := c = '\t' || c = '\n' || c = '\r'

def trimEdges (cs : List Char) : List Char :=
  ((cs.dropWhile isEdge).reverse.dropWhile isEdge).reverse

def clean (cs : List Char) : List Char := (trimEdges cs).filter fun c => !isBreak c

def lower (c : Char) : Char := if 'A' ≤ c ∧ c ≤ 'Z' then Char.ofNat (c.toNat + 0x20) else c

def isLetter (c : Char) : Bool := 'a' ≤ lower c && lower c ≤ 'z'

def isDigit (c : Char) : Bool := '0' ≤ c && c ≤ '9'

def inScheme (c : Char) : Bool := isLetter c || isDigit c || ['+', '-', '.'].contains c

/-- A scheme, in lower case, and what follows its colon. -/
def splitScheme? (cs : List Char) : Option (List Char × List Char) :=
  match cs.takeWhile inScheme, cs.dropWhile inScheme with
  | c :: name, ':' :: rest => if isLetter c then some ((c :: name).map lower, rest) else none
  | _, _ => none

def isSlash (c : Char) : Bool := c = '/' || c = '\\'

def endsPath (c : Char) : Bool := c = '?' || c = '#'

def endsAuthority (c : Char) : Bool := isSlash c || endsPath c

/-- What stands before and after the last sign `@`. -/
def splitUserinfo? (cs : List Char) : Option (List Char × List Char) :=
  match cs.reverse.dropWhile (· ≠ '@') with
  | [] => none
  | _ :: user => some (user.reverse, (cs.reverse.takeWhile (· ≠ '@')).reverse)

/-- Cuts before the first colon that does not stand in brackets. -/
def splitNumber (inside : Bool) : List Char → List Char × List Char
  | [] => ([], [])
  | c :: rest =>
    if c = ':' ∧ !inside then ([], c :: rest)
    else
      let inside := if c = '[' then true else if c = ']' then false else inside
      let (host, number) := splitNumber inside rest
      (c :: host, number)

/-! ### The authority -/

def readUserinfo (cs : List Char) : List Char × List Char :=
  let encoded := percentEncode inUserinfo
  (encoded (cs.takeWhile (· ≠ ':')), encoded ((cs.dropWhile (· ≠ ':')).drop 1))

/-- A colon without a number stands for the usual one. -/
def readNumber (usual : Option Nat) : List Char → Except ParseError (Option Nat)
  | [] => .ok none
  | _ :: digits =>
    match digits.all isDigit, Ipv4.digitsValue? 10 digits with
    | true, some n =>
      if 0xFFFF < n then .error .invalidPortNumber
      else if digits.isEmpty ∨ usual = some n then .ok none
      else .ok (some n)
    | _, _ => .error .invalidPortNumber

/-! ### The path -/

/-- A dot of a segment may be encoded. -/
def decodeDots : List Char → List Char
  | '%' :: '2' :: c :: rest =>
    if lower c = 'e' then '.' :: decodeDots rest else '%' :: '2' :: c :: rest
  | '.' :: rest => '.' :: decodeDots rest
  | cs => cs

def isCurrent (segment : List Char) : Bool := decodeDots segment = ['.']

def isParent (segment : List Char) : Bool := decodeDots segment = ['.', '.']

/-- Follows the segments from a place; one of dots at the end leaves an empty name. -/
def followPath (done : List (List Char)) : List (List Char) → List (List Char)
  | [] => done
  | [last] =>
    if isParent last then done.dropLast ++ [[]]
    else if isCurrent last then done ++ [[]]
    else done ++ [percentEncode inPath last]
  | segment :: rest =>
    if isParent segment then followPath done.dropLast rest
    else if isCurrent segment then followPath done rest
    else followPath (done ++ [percentEncode inPath segment]) rest

def readPath (cs : List Char) : List (List Char) := followPath [] ((cs.drop 1).splitOnP isSlash)

def readQuery : List Char → Option (List Char)
  | '?' :: rest => some (percentEncode inQuery (rest.takeWhile (· ≠ '#')))
  | _ => none

def readFragment (cs : List Char) : Option (List Char) :=
  match cs.dropWhile (· ≠ '#') with
  | _ :: rest => some (percentEncode inFragment rest)
  | [] => none

/-! ### Addresses -/

/-- Reads what follows the scheme of a web address; any number of slashes may lead. -/
def readWeb (scheme cs : List Char) : Except ParseError Url := do
  let cs := cs.dropWhile isSlash
  let authority := cs.takeWhile fun c => !endsAuthority c
  let rest := cs.dropWhile fun c => !endsAuthority c
  let (user, place) := (splitUserinfo? authority).getD ([], authority)
  let (username, password) := readUserinfo user
  let (name, number) := splitNumber false place
  let host ← Host.parse name
  let portNumber ← readNumber (usualPortNumber? scheme) number
  let after := rest.dropWhile fun c => !endsPath c
  return { scheme, username, password, host, portNumber,
           path := readPath (rest.takeWhile fun c => !endsPath c),
           query := readQuery after, fragment := readFragment after }

/-- Two slashes after the scheme announce a host, which may be left empty. -/
def checkFile (cs : List Char) : Except ParseError Unit :=
  match cs with
  | a :: b :: rest =>
    let name := rest.takeWhile fun c => !endsAuthority c
    let isDrive :=
      match name with
      | [letter, mark] => isLetter letter && (mark = ':' || mark = '|')
      | _ => false
    if !isSlash a || !isSlash b || name.isEmpty || isDrive then .ok ()
    else (Host.parse name).map fun _ => ()
  | _ => .ok ()

/-- In an authority without a host there is neither a user nor a number. -/
def checkForeign (cs : List Char) : Except ParseError Unit :=
  match cs with
  | '/' :: '/' :: rest => do
    let authority := rest.takeWhile fun c => !(c = '/' || endsPath c)
    let (user, place) := (splitUserinfo? authority).getD ([], authority)
    let atEnd := authority.length = rest.length
    if (splitUserinfo? authority).isSome && user.isEmpty && place.isEmpty && !atEnd then
      throw .emptyHost
    let (name, number) := splitNumber false place
    Host.checkForeign name
    if name.isEmpty && !(number.isEmpty && user.all (· = ':')) then throw .emptyHost
    let _ ← readNumber none (number.takeWhile (· ≠ '\\'))
  | _ => .ok ()

def parse (s : String) : Except ParseError Reference :=
  match splitScheme? (clean s.toList) with
  | none => .error .noScheme
  | some (scheme, rest) =>
    if (usualPortNumber? scheme).isSome then (readWeb scheme rest).map .web
    else
      let check := if scheme = "file".toList then checkFile rest else checkForeign rest
      check.map fun () => .foreign scheme

end DeployClient.Url
