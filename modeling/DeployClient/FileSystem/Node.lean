import DeployClient.Bytes
import DeployClient.IoError

/-!
Files, directories, symbolic links and special files, as a tree.

A directory holds its entries in the order in which they were made. A node carries its
permission bits, the time of its last change, and the user and the group that it belongs to. These
and the permission bits say what a process may do with it.
-/

namespace DeployClient

structure Owner where
  user : UInt32
  group : UInt32
deriving DecidableEq, Inhabited

/-- The user who may do everything, and the group of this user. -/
def Owner.root : Owner := ⟨0, 0⟩

structure Stamp where
  permissions : Nat
  mtime : Int
  owner : Owner
deriving DecidableEq, Inhabited

/-- Whom a process acts for. What it makes belongs to its user and group. -/
structure Caller where
  owner : Owner
  /-- Further groups that the user is in. -/
  groups : List UInt32
deriving DecidableEq, Inhabited

namespace Caller

def root : Caller := ⟨.root, []⟩

def isPrivileged (c : Caller) : Bool := c.owner.user = 0

def isIn (c : Caller) (group : UInt32) : Bool := group = c.owner.group || c.groups.contains group

end Caller

/-- What a process asks of a node: to read a file or list a directory, to change it, or to look
up names in it. -/
inductive Access where
  | read
  | write
  | search
deriving DecidableEq, Inhabited

namespace Access

/-- The bit that allows it, among the three of a class of users. -/
def weight : Access → Nat
  | .read => 4
  | .write => 2
  | .search => 1

end Access

namespace Stamp

/-- The three bits for the class that the process is in: the owner, the group, or all others. -/
def bitsFor (s : Stamp) (c : Caller) : Nat :=
  if c.owner.user = s.owner.user then s.permissions / 64
  else if c.isIn s.owner.group then s.permissions / 8
  else s.permissions

def allows (s : Stamp) (c : Caller) (a : Access) : Bool :=
  c.isPrivileged || s.bitsFor c / a.weight % 2 = 1

/-- Permission bits are changed by the owner, or by a process that may do everything. -/
def isOwnedBy (s : Stamp) (c : Caller) : Bool := c.isPrivileged || c.owner.user = s.owner.user

end Stamp

inductive SpecialKind where
  | fifo
  | socket
deriving DecidableEq, Inhabited

inductive Node where
  | file (stamp : Stamp) (data : Bytes)
  | directory (stamp : Stamp) (entries : List (Bytes × Node))
  | symlink (stamp : Stamp) (target : Bytes)
  | special (stamp : Stamp) (kind : SpecialKind)
deriving Inhabited

namespace Node

def stamp : Node → Stamp
  | .file s _ => s
  | .directory s _ => s
  | .symlink s _ => s
  | .special s _ => s

def isFile : Node → Bool
  | .file .. => true
  | _ => false

def isDirectory : Node → Bool
  | .directory .. => true
  | _ => false

def isSymlink : Node → Bool
  | .symlink .. => true
  | _ => false

def entries : Node → List (Bytes × Node)
  | .directory _ es => es
  | _ => []

def size : Node → Nat
  | .file _ data => data.length
  | _ => 0

/-- The bits that tell the kinds of nodes apart, in front of the permission bits. -/
def typeBits : Node → Nat
  | .file .. => 0o100000
  | .directory .. => 0o040000
  | .symlink .. => 0o120000
  | .special _ .fifo => 0o010000
  | .special _ .socket => 0o140000

def mode (n : Node) : Nat := n.typeBits + n.stamp.permissions

/-- What reading an opened node gives. -/
def contents : Node → Except OsError Bytes
  | .file _ data => .ok data
  | .directory .. => .error .isDirectory
  | .symlink .. => .error .tooManyLinks
  | .special .. => .error .noDevice

/-! ### Entries -/

def entry? (name : Bytes) (n : Node) : Option Node :=
  (n.entries.find? fun e => e.1 = name).map Prod.snd

/-- The node that a chain of entry names leads to; links are not followed. -/
def descend? : List Bytes → Node → Option Node
  | [], n => some n
  | name :: rest, n => (n.entry? name).bind (descend? rest)

@[simp] theorem descend?_nil (n : Node) : descend? [] n = some n := rfl
theorem descend?_cons (name : Bytes) (rest : List Bytes) (n : Node) :
    descend? (name :: rest) n = (n.entry? name).bind (descend? rest) := rfl
theorem descend?_append (l r : List Bytes) (n : Node) :
    descend? (l ++ r) n = (descend? l n).bind (descend? r) := by
  induction l generalizing n with
  | nil => rfl
  | cons name l ih =>
    simp only [List.cons_append, descend?_cons]
    cases n.entry? name with
    | none => rfl
    | some m => simpa using ih m

def mapEntries (f : List (Bytes × Node) → List (Bytes × Node)) : Node → Node
  | .directory s es => .directory s (f es)
  | n => n

/-- Puts a node under a name, in the place of what bears the name already. -/
def putEntry (name : Bytes) (node : Node) (es : List (Bytes × Node)) : List (Bytes × Node) :=
  if es.any fun e => e.1 = name then es.map fun e => if e.1 = name then (name, node) else e
  else es ++ [(name, node)]

/-- Changes the node that a chain of names leads to, if there is one. -/
def modify (f : Node → Node) : List Bytes → Node → Node
  | [], n => f n
  | name :: rest, n =>
    n.mapEntries fun es => es.map fun e => if e.1 = name then (name, modify f rest e.2) else e

def put (root : Node) (parent : List Bytes) (name : Bytes) (node : Node) : Node :=
  root.modify (mapEntries (putEntry name node)) parent

def remove (root : Node) (parent : List Bytes) (name : Bytes) : Node :=
  root.modify (mapEntries fun es => es.filter fun e => e.1 ≠ name) parent

end Node

end DeployClient
