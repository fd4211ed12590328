import DeployClient.FileSystem.Node
import DeployClient.Path.Basic

/-!
A file system: a tree of nodes, and the process that works in it with its current directory.

`resolve` finds what a path leads to. It takes one part after the other, each in a directory that
the process may search; a symbolic link on the way is replaced by its target, and at most forty
links are followed. The current directory may have been removed, and then it is an empty place.
-/

namespace DeployClient

structure FileSystem where
  root : Node
  cwd : List Bytes
  /-- The time that nodes made from here on are stamped with. -/
  now : Int
  caller : Caller
deriving Inhabited

/-- What a path is looked up for: links at its end are left alone, followed, or followed to
the place of a file that is to be written. -/
inductive Intent where
  | inspect
  | follow
  | write
deriving DecidableEq

/-- Where a path leads: to a node, or to a free name in a directory. -/
inductive Place where
  | taken (names : List Bytes) (node : Node)
  | free (parent : List Bytes) (name : Bytes)

namespace FileSystem

def maxLinks : Nat := 40
def maxName : Nat := 255
def maxPath : Nat := 4096

def nodeAt? (fs : FileSystem) (names : List Bytes) : Option Node := fs.root.descend? names

/-- The process may do this with the node. -/
def allows (fs : FileSystem) (a : Access) (n : Node) : Bool := n.stamp.allows fs.caller a

/-- What is made now bears this stamp. -/
def stamp (fs : FileSystem) (permissions : Nat) : Stamp := ⟨permissions, fs.now, fs.caller.owner⟩

/-- Names can be looked up here. A removed current directory is still a place. -/
def isPlace (fs : FileSystem) (names : List Bytes) : Bool :=
  match fs.nodeAt? names with
  | some n => n.isDirectory && fs.allows .search n
  | none => names = fs.cwd

/-- Why names cannot be looked up here. -/
def refusalAt (fs : FileSystem) (names : List Bytes) : OsError :=
  match fs.nodeAt? names with
  | some n => if n.isDirectory then .permissionDenied else .notDirectory
  | none => .notDirectory

/-- How far a path is followed before a link has to be replaced. -/
inductive Progress where
  | arrived (place : Place)
  | link (parent : List Bytes) (target : Bytes) (rest : List Bytes)
  | failed (error : OsError)

def advance (fs : FileSystem) (intent : Intent) (slashed : Bool) :
    List Bytes → List Bytes → Progress
  | names, [] =>
    match fs.nodeAt? names with
    | some node => .arrived (.taken names node)
    | none => .arrived (.taken names (.directory (fs.stamp 0o755) []))
  | names, part :: rest =>
    if !fs.isPlace names then .failed (fs.refusalAt names)
    else if rest = [] ∧ slashed ∧ intent = .write then .failed .isDirectory
    else if part = [Bytes.dot] then advance fs intent slashed names rest
    else if part = [Bytes.dot, Bytes.dot] then advance fs intent slashed names.dropLast rest
    else if maxName < part.length then .failed .nameTooLong
    else
      match fs.nodeAt? (names ++ [part]) with
      | none => if rest = [] then .arrived (.free names part) else .failed .noEntry
      | some (.symlink _ target) =>
        if rest = [] ∧ intent = .inspect ∧ !slashed then
          advance fs intent slashed (names ++ [part]) rest
        else .link names target rest
      | some node =>
        if !node.isDirectory ∧ (rest ≠ [] ∨ slashed) then .failed .notDirectory
        else advance fs intent slashed (names ++ [part]) rest

def steps (b : Bytes) : List Bytes := (b.splitOn Bytes.slash).filter (· ≠ [])

def endsWithSlash (b : Bytes) : Bool := b.getLast? = some Bytes.slash

/-- Follows the steps from a place, replacing as many links as are left. -/
def resolveFrom (fs : FileSystem) (intent : Intent) :
    Nat → Bool → List Bytes → List Bytes → Except OsError Place
  | links, slashed, names, rest =>
    match advance fs intent slashed names rest, links with
    | .arrived place, _ => .ok place
    | .failed error, _ => .error error
    | .link .., 0 => .error .tooManyLinks
    | .link parent target rest, links + 1 =>
      resolveFrom fs intent links (slashed || (rest = [] && endsWithSlash target))
        (if target.head? = some Bytes.slash then [] else parent) (steps target ++ rest)

def resolve (fs : FileSystem) (intent : Intent) (p : Path) : Except OsError Place :=
  if p.bytes.contains 0 then .error .nulInPath
  else if p.bytes = [] then .error .noEntry
  else if maxPath ≤ p.bytes.length then .error .nameTooLong
  else
    resolveFrom fs intent maxLinks (endsWithSlash p.bytes)
      (if p.isAbsolute then [] else fs.cwd) (steps p.bytes)

def node (fs : FileSystem) (intent : Intent) (p : Path) : Except OsError Node :=
  match fs.resolve intent p with
  | .error e => .error e
  | .ok (.taken _ n) => .ok n
  | .ok (.free ..) => .error .noEntry

/-! ### Questions -/

/-- The node itself, even if it is a link. -/
def lstat (fs : FileSystem) (p : Path) : Except OsError Node := fs.node .inspect p

/-- The node at the end of the links. -/
def stat (fs : FileSystem) (p : Path) : Except OsError Node := fs.node .follow p

def isFile (fs : FileSystem) (p : Path) : Bool :=
  match fs.stat p with
  | .ok n => n.isFile
  | .error _ => false

def isDirectory (fs : FileSystem) (p : Path) : Bool :=
  match fs.stat p with
  | .ok n => n.isDirectory
  | .error _ => false

def readLink (fs : FileSystem) (p : Path) : Except OsError Bytes :=
  match fs.lstat p with
  | .ok (.symlink _ target) => .ok target
  | .ok _ => .error .invalidArgument
  | .error e => .error e

/-- Opens for reading; a directory opens and is refused when it is read. -/
def openNode (fs : FileSystem) (p : Path) : Except OsError Node :=
  match fs.stat p with
  | .error e => .error e
  | .ok n =>
    if !fs.allows .read n then .error .permissionDenied
    else
      match n with
      | .special .. => .error .noDevice
      | n => .ok n

def read (fs : FileSystem) (p : Path) : Except OsError Bytes :=
  match fs.openNode p with
  | .ok n => n.contents
  | .error e => .error e

def readText (fs : FileSystem) (p : Path) : Except IoError String :=
  match fs.read p with
  | .error e => .error (.os e)
  | .ok b =>
    match Bytes.toText? b with
    | some s => .ok s
    | none => .error .notUtf8

/-- Fails if the current directory was removed. -/
def currentDir (fs : FileSystem) : Except OsError Path :=
  match fs.nodeAt? fs.cwd with
  | some _ => .ok (Path.ofNames true fs.cwd)
  | none => .error .noEntry

/-! ### Changes -/

/-- Puts a new node under a free name, if the directory may be changed. -/
def add (fs : FileSystem) (parent : List Bytes) (name : Bytes) (n : Node) :
    Except OsError FileSystem :=
  match fs.nodeAt? parent with
  | none => .error .noEntry
  | some d =>
    if fs.allows .write d then .ok { fs with root := fs.root.put parent name n }
    else .error .permissionDenied

/-- A file with other data and other permissions. -/
def rewrite (fs : FileSystem) (names : List Bytes) (stamp : Stamp) (permissions : Nat)
    (data : Bytes) : FileSystem :=
  let node := .file ⟨permissions, fs.now, stamp.owner⟩ data
  { fs with root := fs.root.modify (fun _ => node) names }

/-- Writes a whole file. One that is there keeps its owner, and its permissions unless others are
forced; if these are not the process's to change, it has been emptied before they are refused. -/
def write (fs : FileSystem) (p : Path) (data : Bytes) (permissions : Nat) (force : Bool) :
    Except OsError Unit × FileSystem :=
  match fs.resolve .write p with
  | .error e => (.error e, fs)
  | .ok (.free parent name) =>
    match fs.add parent name (.file (fs.stamp permissions) data) with
    | .error e => (.error e, fs)
    | .ok made => (.ok (), made)
  | .ok (.taken names (.file stamp _)) =>
    if !stamp.allows fs.caller .write then (.error .permissionDenied, fs)
    else if !force then (.ok (), fs.rewrite names stamp stamp.permissions data)
    else if stamp.isOwnedBy fs.caller then (.ok (), fs.rewrite names stamp permissions data)
    else (.error .notPermitted, fs.rewrite names stamp stamp.permissions [])
  | .ok (.taken _ (.directory ..)) => (.error .isDirectory, fs)
  | .ok (.taken _ (.symlink ..)) => (.error .tooManyLinks, fs)
  | .ok (.taken _ (.special stamp _)) =>
    (.error (if stamp.allows fs.caller .write then .noDevice else .permissionDenied), fs)

def withoutSlashes (p : Path) : Path :=
  if p.isAbsolute ∧ p.bytes.all (· = Bytes.slash) then ⟨[Bytes.slash]⟩
  else ⟨(p.bytes.reverse.dropWhile (· = Bytes.slash)).reverse⟩

def makeDirectory (fs : FileSystem) (p : Path) : Except OsError FileSystem :=
  match fs.resolve .inspect (withoutSlashes p) with
  | .error e => .error e
  | .ok (.taken ..) => .error .alreadyExists
  | .ok (.free parent name) => fs.add parent name (.directory (fs.stamp 0o755) [])

/-- A directory that is there already will do. -/
def makeOrFind (fs : FileSystem) (p : Path) : Except OsError Unit × FileSystem :=
  match fs.makeDirectory p with
  | .ok made => (.ok (), made)
  | .error e => if fs.isDirectory p then (.ok (), fs) else (.error e, fs)

/-- Makes the first of the paths, and before it as many of the others, each the parent of the
one before, as it takes. Directories that were made stay even if a later one fails. -/
def makeAlong (fs : FileSystem) : List Path → Except OsError Unit × FileSystem
  | [] => (.error .noEntry, fs)
  | p :: above =>
    if p.bytes = [] then (.ok (), fs)
    else
      match fs.makeDirectory p with
      | .error .noEntry =>
        match makeAlong fs above with
        | (.error e, made) => (.error e, made)
        | (.ok _, made) => made.makeOrFind p
      | _ => fs.makeOrFind p

def makeDirectories (fs : FileSystem) (p : Path) : Except OsError FileSystem :=
  match fs.makeAlong (p :: p.parents) with
  | (.ok _, made) => .ok made
  | (.error e, _) => .error e

end FileSystem

end DeployClient
