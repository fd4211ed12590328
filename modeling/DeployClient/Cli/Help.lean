import DeployClient.Cli.Spec

/-!
The text that explains a command: what it does, how it is called, and what it accepts. In each
list the explanations stand in one column.
-/

namespace DeployClient.Cli

namespace Parameter

def valueName (p : Parameter) : String :=
  p.name.map fun c => if c = '-' then '_' else c.toUpper

/-- How a positional argument is written. -/
def place (p : Parameter) : String :=
  let ellipsis := if p.isMultiple then "..." else ""
  if p.required then s!"<{p.valueName}>{ellipsis}" else s!"[{p.valueName}]{ellipsis}"

/-- How an option is written out. -/
def usage (p : Parameter) : String :=
  if p.takesValue then s!"--{p.name} <{p.valueName}>" else s!"--{p.name}"

def label (p : Parameter) : String :=
  match p.short with
  | some c => s!"-{c}, {p.usage}"
  | none => p.place

def explanation (p : Parameter) : String :=
  match p.fallback with
  | some value => s!"{p.about} [default: {value}]"
  | none => p.about

end Parameter

def padded (width : Nat) (s : String) : String :=
  s ++ String.ofList (List.replicate (width - s.length) ' ')

/-- A heading, and below it labels with their explanations. -/
def table (heading : String) (rows : List (String × String)) : List String :=
  if rows.isEmpty then []
  else
    let width := (rows.map fun r => r.1.length).foldl max 0
    ["", heading] ++ rows.map fun r => s!"  {padded width r.1}  {r.2}"

namespace Spec

def usageWords (s : Spec) (path : List String) : List String :=
  path ++ (if s.options.isEmpty then [] else ["[OPTIONS]"])
    ++ (s.options.filter (·.required)).map Parameter.usage
    ++ (if s.hasSubcommands then ["<COMMAND>"] else [])
    ++ s.positionals.map Parameter.place

def parameterRows (ps : List Parameter) : List (String × String) :=
  ps.map fun p => (p.label, p.explanation)

/-- The lines of the help for a command that is called by these words. -/
def help (s : Spec) (path : List String) : List String :=
  [s.about, "", " ".intercalate ("Usage:" :: s.usageWords path)]
    ++ table "Commands:" (s.allSubcommands.map fun c => (c.name, c.about))
    ++ table "Arguments:" (parameterRows s.positionals)
    ++ table "Options:" (parameterRows s.options)

end Spec

end DeployClient.Cli
