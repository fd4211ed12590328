import DeployClient.Url.Parser

/-!
Requests to a server, and the forms that they carry.

A form is sent as one line of encoded fields, or in parts, each with a header of its own; only
a form in parts can carry a file.
-/

namespace DeployClient.Http

inductive Method where
  | get
  | post
deriving DecidableEq, Inhabited

def Method.text : Method → String
  | .get => "GET"
  | .post => "POST"

/-! ### Forms -/

abbrev Field := String × String

def isPlain (b : UInt8) : Bool :=
  let c := Char.ofNat b.toNat
  Url.isLetter c || Url.isDigit c || ['*', '-', '.', '_'].contains c

def encodeFieldByte (b : UInt8) : List Char :=
  if b = 0x20 then ['+'] else if isPlain b then [Char.ofNat b.toNat] else Url.encodeByte b

def encodeText (s : String) : List Char := (Bytes.ofText s).flatMap encodeFieldByte

def encodeFields (fields : List Field) : String :=
  String.ofList (Url.joinWith '&' (fields.map fun f => encodeText f.1 ++ '=' :: encodeText f.2))

inductive PartContent where
  | text (s : String)
  | file (name mediaType : String) (data : Bytes)
deriving DecidableEq, Inhabited

structure Part where
  name : String
  content : PartContent
deriving DecidableEq, Inhabited

namespace Part

def disposition (p : Part) : String :=
  let named := s!"form-data; name=\"{p.name}\""
  match p.content with
  | .text _ => named
  | .file name .. => named ++ s!"; filename=\"{name}\""

def mediaType? (p : Part) : Option String :=
  match p.content with
  | .text _ => none
  | .file _ mediaType _ => some mediaType

end Part

inductive Body where
  | empty
  | fields (fields : List Field)
  | parts (parts : List Part)
deriving DecidableEq, Inhabited

def Body.mediaType? : Body → Option String
  | .empty => none
  | .fields _ => some "application/x-www-form-urlencoded"
  | .parts _ => some "multipart/form-data"

/-! ### Requests -/

structure Request where
  method : Method
  url : Url
  authorization : Option String
  body : Body
deriving DecidableEq, Inhabited

/-- Control characters other than tabs cannot stand in a header. -/
def inHeader (c : Char) : Bool := c = '\t' || (0x20 ≤ c.toNat && c.toNat ≠ 0x7F)

def isPadding (c : Char) : Bool := c = ' ' || c = '\t'

/-- The header that shows a token; blanks at its end do not arrive. -/
def bearer (token : String) : String :=
  String.ofList (("Bearer " ++ token).toList.reverse.dropWhile isPadding).reverse

/-- There is no request if the address cannot be asked or the token cannot be shown. -/
def Request.prepare? (method : Method) (address token : String) (body : Body) :
    Option Request :=
  match Url.parse address with
  | .ok (.web url) =>
    if url.isHttp && token.toList.all inHeader then
      some ⟨method, url.anonymous, some (bearer token), body⟩
    else none
  | _ => none

end DeployClient.Http
