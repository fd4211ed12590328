import DeployClient.Ignore.Rule
import DeployClient.Path.Basic

/-!
The rules of all ignore files together.

A name is judged by the last rule that speaks about it. If none does, the directories above
it are asked in turn, up to the directory that holds everything.
-/

namespace DeployClient.Ignore

structure Patterns where
  root : Bytes
  rules : List Rule
deriving Inhabited

namespace Patterns

def dotSlash : Bytes := [Bytes.dot, Bytes.slash]

def dropStart (start name : Bytes) : Bytes :=
  match start.isPrefixOf? name with
  | some rest => rest
  | none => name

/-- Reads the lines in order and stops at the first that is no pattern. -/
def compile (root : Path) (lines : List String) : Except LineError Patterns :=
  (lines.mapM Rule.ofLine?).map fun rules =>
    ⟨dropStart dotSlash root.bytes, rules.filterMap id⟩

/-- The name as seen from the root; a bare file name is taken as it is. -/
def relative (p : Patterns) (name : Bytes) : Bytes :=
  let name := dropStart dotSlash name
  if p.root = [Bytes.dot] ∨ !name.contains Bytes.slash then name
  else
    match p.root.isPrefixOf? name with
    | some rest => dropStart [Bytes.slash] rest
    | none => name

/-- What the last rule says that speaks about the name: left out, or kept. -/
def ruling? (rules : List Rule) (name : Bytes) (isDirectory : Bool) : Option Bool :=
  (rules.reverse.find? fun r => r.applies name isDirectory).map fun r => !r.reincludes

/-- A name with its own kind, and then each directory above it. -/
def levels (name : Bytes) (isDirectory : Bool) : List (Bytes × Bool) :=
  (name, isDirectory) :: (Path.parents ⟨name⟩).map fun q => (q.bytes, true)

def isIgnored (p : Patterns) (name : Bytes) (isDirectory : Bool) : Bool :=
  ((levels (p.relative name) isDirectory).findSome? fun l => ruling? p.rules l.1 l.2).getD false

end Patterns

end DeployClient.Ignore
