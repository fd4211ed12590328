import DeployClient.Path.Basic

/-!
Names that entries get in an archive: the place of a file below a base directory, with
slashes between the components.
-/

namespace DeployClient

/-- The name of the base directory itself. -/
def baseName : Bytes := [Bytes.dot]

inductive Naming where
  | outside
  | notUnicode
  | named (name : Bytes)
deriving DecidableEq

namespace Path

def Component.name? : Component → Option Bytes
  | .normal name => some name
  | _ => none

def nameOf (names : List Bytes) : Bytes := if names.isEmpty then baseName else joinNames names

def nameBelow (base p : Path) : Naming :=
  match below? base p with
  | none => .outside
  | some cs =>
    let names := cs.filterMap Component.name?
    if names.all fun n => (Bytes.toText? n).isSome then .named (nameOf names) else .notUnicode

end Path

end DeployClient
