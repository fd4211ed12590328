import DeployClient.Archive.Kind
import DeployClient.Path.Basic
import DeployClient.Tar.Header

/-!
Members of an archive and the bytes that stand for them.

A member is a header and its data, filled up to whole blocks. A name or a link target that
the header has no room for goes into a block of its own in front of it, and the header keeps
as much of it as fits.
-/

namespace DeployClient.Tar

open Archive (Kind)

structure Member where
  name : Bytes
  kind : Kind
  mode : Nat
  owner : Owner
  mtime : Nat
  /-- The size that the header announces. -/
  size : Nat
  target : Bytes
  data : Bytes
deriving DecidableEq, Inhabited

def kindFlag : Kind → UInt8
  | .file => 48
  | .directory => 53
  | .symlink => 50

def longNameFlag : UInt8 := 76
def longLinkFlag : UInt8 := 75

/-- Seconds before the epoch count down from the largest number of 64 bits. -/
def unsignedTime (t : Int) : Nat := (t % 0x10000000000000000).toNat

/-- Data and the zeros that fill its last block. -/
def padded (data : Bytes) : Bytes :=
  data ++ List.replicate ((blockSize - data.length % blockSize) % blockSize) 0

def longHeader (flag : UInt8) (size : Nat) : Header where
  name := Bytes.ofText "././@LongLink"
  mode := 0o644
  owner := .root
  size := size
  mtime := 0
  flag := flag
  link := []

/-- A text too long for its field: an entry whose data is the text and a NUL. -/
def longEntry (flag : UInt8) (text : Bytes) : Bytes :=
  (longHeader flag (text.length + 1)).encode ++ padded (text ++ [0])

/-! ### What a field keeps of a long text -/

/-- The longest start of the bytes, no longer than `n`, that does not cut a character. -/
def cutAtChar : Nat → Bytes → Bytes
  | 0, _ => []
  | n + 1, b =>
    let cut := b.take (n + 1)
    if (Bytes.toText? cut).isSome then cut else cutAtChar n b

def componentText : Path.Component → Bytes
  | .root => [Bytes.slash]
  | .current => [Bytes.dot]
  | .parent => [Bytes.dot, Bytes.dot]
  | .normal name => name

/-- A name spelled anew from its components; a slash at its end stays. -/
def respellName (name : Bytes) : Bytes :=
  Path.joinNames ((Path.innerComponents ⟨name⟩).map componentText)
    ++ if name.getLast? = some Bytes.slash then [Bytes.slash] else []

def nameField (name : Bytes) : Bytes :=
  if name.length ≤ nameWidth then name else respellName (cutAtChar nameWidth name)

/-- The components of a target with the slashes between them. -/
def linkPieces (target : Bytes) : List Bytes :=
  let rec pieces (needsSlash : Bool) : List Path.Component → List Bytes
    | [] => if target.getLast? = some Bytes.slash then [[Bytes.slash]] else []
    | c :: cs =>
      let rest := componentText c :: pieces (c != .root) cs
      if needsSlash then [Bytes.slash] :: rest else rest
  pieces false (Path.components ⟨target⟩)

/-- The leading pieces that fit whole. -/
def fitting : Nat → List Bytes → Bytes
  | _, [] => []
  | room, piece :: rest =>
    if piece.length ≤ room then piece ++ fitting (room - piece.length) rest else []

def linkText (target : Bytes) : Bytes := (linkPieces target).flatten

def linkField (target : Bytes) : Bytes := fitting nameWidth (linkPieces target)

/-! ### Encoding -/

namespace Member

def header (m : Member) : Header where
  name := nameField m.name
  mode := m.mode
  owner := m.owner
  size := m.size
  mtime := m.mtime
  flag := kindFlag m.kind
  link := if m.kind = .symlink then linkField m.target else []

def longName (m : Member) : Bytes :=
  if m.name.length ≤ nameWidth then [] else longEntry longNameFlag m.name

def longLink (m : Member) : Bytes :=
  if m.kind ≠ .symlink ∨ (linkText m.target).length ≤ nameWidth then []
  else longEntry longLinkFlag m.target

def encode (m : Member) : Bytes :=
  m.longName ++ m.longLink ++ m.header.encode ++ padded m.data

end Member

def endBlocks : Bytes := List.replicate (2 * blockSize) 0

/-- A whole stream: the members and two blocks of zeros. -/
def encode (ms : List Member) : Bytes := ms.flatMap Member.encode ++ endBlocks

end DeployClient.Tar
