import DeployClient.Archive.Claims
import DeployClient.Archive.Error
import DeployClient.Ignore.Patterns
import DeployClient.Log
import DeployClient.Path.Naming
import DeployClient.Tar.Member

/-!
Deciding which nodes go into an archive, and writing them.

A node is judged by its name, its kind, the ignore patterns and the names already taken. One
that passes claims its name, and then its member is written. A file given on its own is
preceded by the directories between it and the base.
-/

namespace DeployClient.Archive

structure Writer where
  patterns : Ignore.Patterns
  /-- Files go by their last name alone, and directories are left out. -/
  filesOnly : Bool
  /-- Every write to the archive fails in this way. -/
  sinkFault : Option IoError
  /-- Diagnostics go nowhere. -/
  mute : Bool
  claims : Claims
  members : List Tar.Member
  notes : List Note
deriving Inhabited

abbrev Writing := EStateM Error Writer

/-- What is to be done with a node. -/
inductive Verdict where
  | outside
  | silent
  | rejected (d : Diagnostic)
  | duplicate (name path : Bytes) (first : Path)
  | claims (name : Bytes) (kind : Kind)
deriving DecidableEq

/-- A node that has claimed its name. -/
structure Entry where
  name : Bytes
  kind : Kind
  target : Bytes
  size : Nat
  source : Path
deriving DecidableEq, Inhabited

namespace Writer

def new (patterns : Ignore.Patterns) (filesOnly : Bool) : Writer :=
  ⟨patterns, filesOnly, none, false, .empty, [], []⟩

def archiveName (w : Writer) (path : Bytes) : Bytes :=
  if w.filesOnly then Path.lastPart path else path

/-- An implied directory that is in the archive already is passed over in silence. -/
def judgeName (w : Writer) (path : Bytes) (kind : Kind) (implied : Bool) : Verdict :=
  let name := w.archiveName path
  match w.claims.holder? name with
  | none => .claims name kind
  | some first =>
    if implied ∧ first.kind = .directory then .silent else .duplicate name path first.source

def judge (w : Writer) (source base : Path) (node : Node) (implied : Bool) : Verdict :=
  match Path.nameBelow base source with
  | .outside => .outside
  | .notUnicode => .rejected (.notUnicode source)
  | .named path =>
    match Kind.ofNode? node with
    | none => .rejected (.unsupportedType path)
    | some kind =>
      if kind = .directory ∧ w.filesOnly then .silent
      else if path ≠ baseName ∧ w.patterns.isIgnored path (kind = .directory) then
        .rejected (.ignored path)
      else w.judgeName path kind implied

/-! ### Telling -/

def note (n : Note) (w : Writer) : Writer := { w with notes := w.notes ++ [n] }

def tell (w : Writer) (d : Diagnostic) : Writer := if w.mute then w else w.note (.diagnostic d)

def claim (w : Writer) (name : Bytes) (who : Claimant) : Writer :=
  { w with claims := w.claims.claim name who }

def append (w : Writer) (m : Tar.Member) : Writer := { w with members := w.members ++ [m] }

end Writer

def report (d : Diagnostic) : Writing Unit := modify (·.tell d)

def event (e : Event) : Writing Unit := modify (·.note (.event e))

/-! ### Accepting -/

def targetOf (fs : FileSystem) (kind : Kind) (source : Path) : Except OsError Bytes :=
  match kind with
  | .symlink => fs.readLink source
  | _ => .ok []

def ofOs {α : Type} (r : Except OsError α) : Writing α :=
  match r with
  | .ok a => pure a
  | .error e => throw (.io (.os e))

/-- The entry of a node, if it passes. The base directory claims its name and has no entry. -/
def accept (fs : FileSystem) (source base : Path) (node : Node) (implied : Bool) :
    Writing (Option Entry) := do
  let w ← get
  match w.judge source base node implied with
  | .outside => throw .outsideBase
  | .silent => return none
  | .rejected d =>
    report d
    return none
  | .duplicate name path first =>
    event (.skippingDuplicate name first source)
    report (.duplicate path)
    return none
  | .claims name kind =>
    modify (·.claim name ⟨kind, source⟩)
    if name = baseName then return none
    let target ← ofOs (targetOf fs kind source)
    return some ⟨name, kind, target, node.size, source⟩

/-! ### Writing -/

def put (m : Tar.Member) : Writing Unit := do
  match (← get).sinkFault with
  | some e => throw (.io e)
  | none => modify (·.append m)

def memberOf (entry : Entry) (node : Node) (data : Bytes) : Tar.Member :=
  ⟨entry.name, entry.kind, node.mode, node.stamp.owner, Tar.unsignedTime node.stamp.mtime,
    entry.size, entry.target, data⟩

/-- Copies as many bytes as the header has announced, even if the file has grown since; a
file that has shrunk is an error. -/
def writeFile (fs : FileSystem) (entry : Entry) (node : Node) : Writing Unit := do
  let opened ← ofOs (fs.openNode entry.source)
  match opened.contents with
  | .error e =>
    put (memberOf entry node [])
    throw (.io (.os e))
  | .ok data =>
    let copied := data.take entry.size
    put (memberOf entry node copied)
    if copied.length < entry.size then
      throw (.shortWrite entry.source entry.size copied.length)

def write (fs : FileSystem) (entry : Entry) (node : Node) : Writing Unit := do
  match entry.kind with
  | .file => writeFile fs entry node
  | _ => put (memberOf entry node [])
  event (.archived entry.name entry.kind entry.size)

/-- Judges a node and writes it if it passes; returns the number of entries written. -/
def addPath (fs : FileSystem) (source base : Path) (node : Node) (implied : Bool) :
    Writing Nat := do
  match ← accept fs source base node implied with
  | none => return 0
  | some entry =>
    write fs entry node
    return 1

/-- The parents of the source below the base, outermost first. -/
def parentsBelow (source base : Path) : List Path :=
  (source.parents.takeWhile fun p => !p.sameAs base && p.startsWith base).reverse

def addParents (fs : FileSystem) (base : Path) : List Path → Writing Nat
  | [] => pure 0
  | parent :: rest => do
    let node ← ofOs (fs.lstat parent)
    let added ← if node.isDirectory then addPath fs parent base node true else pure 0
    let others ← addParents fs base rest
    return added + others

/-- The parents are written only if the file itself passes. -/
def addFile (fs : FileSystem) (source base : Path) (node : Node) : Writing Nat := do
  match ← accept fs source base node false with
  | none => return 0
  | some entry =>
    let parents := if (← get).filesOnly then [] else parentsBelow source base
    let added ← addParents fs base parents
    write fs entry node
    return added + 1

end DeployClient.Archive
