import DeployClient.Bytes
import DeployClient.Text.Utf8

/-!
Paths as they are written, and what their text means.

A path is a byte string. Its components are what lies between slashes, without empty parts
and without the dots that change nothing. Joining, normalising and going to the parent work
on the text alone and never ask a file system.
-/

namespace DeployClient

structure Path where
  bytes : Bytes
deriving DecidableEq, Inhabited

namespace Path

inductive Component where
  | root
  | current
  | parent
  | normal (name : Bytes)
deriving DecidableEq

/-- What a part between slashes stands for; empty parts and single dots stand for nothing. -/
def Component.ofPart (part : Bytes) : Option Component :=
  if part = [] ∨ part = [Bytes.dot] then none
  else if part = [Bytes.dot, Bytes.dot] then some .parent
  else some (.normal part)

def ofText (s : String) : Path := ⟨Bytes.ofText s⟩

def display (p : Path) : String := Text.Utf8.decodeLossy p.bytes

def isAbsolute (p : Path) : Bool := p.bytes.head? = some Bytes.slash

def parts (p : Path) : List Bytes := p.bytes.splitOn Bytes.slash

def startsWithDot (p : Path) : Bool := p.parts.head? = some [Bytes.dot]

def innerComponents (p : Path) : List Component := p.parts.filterMap Component.ofPart

/-- A leading dot counts, since it tells `./a` from `a`. -/
def components (p : Path) : List Component :=
  if p.isAbsolute then .root :: p.innerComponents
  else if p.startsWithDot then .current :: p.innerComponents
  else p.innerComponents

/-- Both texts lead to the same place, whatever the file system. -/
def sameAs (p q : Path) : Bool := p.components = q.components

def startsWith (p base : Path) : Bool := base.components.isPrefixOf p.components

/-- The components of `p` after those of `base`. -/
def below? (base p : Path) : Option (List Component) := base.components.isPrefixOf? p.components

/-- An absolute path replaces what it is joined to. -/
def join (p q : Path) : Path :=
  if q.isAbsolute then q
  else if p.bytes = [] ∨ p.bytes.getLast? = some Bytes.slash then ⟨p.bytes ++ q.bytes⟩
  else ⟨p.bytes ++ Bytes.slash :: q.bytes⟩

def child (p : Path) (name : Bytes) : Path := p.join ⟨name⟩

/-! ### Normal form -/

def joinNames (names : List Bytes) : Bytes := List.intercalate [Bytes.slash] names

def ofNames (absolute : Bool) (names : List Bytes) : Path :=
  ⟨(if absolute then [Bytes.slash] else []) ++ joinNames names⟩

/-- Follows one component from the place that the names lead to. -/
def follow (names : List Bytes) : Component → List Bytes
  | .root => []
  | .current => names
  | .parent => names.dropLast
  | .normal name => names ++ [name]

def collapse (cs : List Component) : List Bytes := cs.foldl follow []

def normalize (p : Path) : Path := ofNames p.isAbsolute (collapse p.components)

/-! ### Parents -/

/-- Leaves out trailing parts that stand for nothing. -/
def trimParts (parts : List Bytes) : List Bytes :=
  (parts.reverse.dropWhile fun part => (Component.ofPart part).isNone).reverse

/-- The leading part that the parent of a path always keeps, and the rest. -/
def splitHead (p : Path) : Bytes × Bytes :=
  if p.isAbsolute ∨ p.startsWithDot then (p.bytes.take 1, p.bytes.drop 1) else ([], p.bytes)

/-- The path without its last component; the text before it stays as it is written. -/
def parent? (p : Path) : Option Path :=
  let (head, body) := p.splitHead
  match trimParts (body.splitOn Bytes.slash) with
  | [] => if p.isAbsolute ∨ head = [] then none else some ⟨[]⟩
  | parts => some ⟨head ++ joinNames (trimParts parts.dropLast)⟩

/-- The parents of a path, nearest first. -/
def parentsUpTo : Nat → Path → List Path
  | 0, _ => []
  | n + 1, p =>
    match p.parent? with
    | none => []
    | some q => q :: parentsUpTo n q

def parents (p : Path) : List Path := parentsUpTo (p.bytes.length + 1) p

/-- What follows the last slash. -/
def lastPart (name : Bytes) : Bytes := (name.splitOn Bytes.slash).getLastD []

end Path

end DeployClient
