import DeployClient.Cli.Help
import DeployClient.Path.Basic

/-!
Reading the arguments of a program against the specification of its commands.

The arguments are read one at a time. An option that takes a value waits for it, and what is
waiting is settled before the next option takes effect. Each command that is named opens a
scope of its own; the scopes are completed from the innermost to the outermost.
-/

namespace DeployClient.Cli

inductive UsageError where
  | help (lines : List String)
  | helpOnMissing
  | version
  | invalidSubcommand
  | missingSubcommand
  | unknownArgument
  | tooManyValues
  | invalidValue
  | invalidUtf8
  | repeatedArgument
  | missingArgument
deriving DecidableEq, Inhabited

/-- An argument that was given, with its values. -/
structure Given where
  name : String
  values : List Bytes
deriving DecidableEq, Inhabited

/-- What has been read for one command. -/
structure Scope where
  spec : Spec
  path : List String
  given : List Given
  pending : Option (Parameter × List Bytes)
  /-- The number of positional arguments that are complete. -/
  filled : Nat
  /-- Everything that follows is positional. -/
  trailing : Bool
deriving Inhabited

def checkValue (kind : ValueKind) (b : Bytes) : Except UsageError Unit :=
  match kind with
  | .text => if (Bytes.toText? b).isSome then .ok () else .error .invalidUtf8
  | .path => if b.isEmpty then .error .invalidValue else .ok ()

namespace Scope

def new (spec : Spec) (path : List String) : Scope := ⟨spec, path, [], none, 0, false⟩

def isGiven (l : Scope) (name : String) : Bool := l.given.any fun g => g.name = name

def add (l : Scope) (name : String) (values : List Bytes) : Scope :=
  { l with given := l.given ++ [⟨name, values⟩] }

def addOnce (l : Scope) (name : String) (values : List Bytes) : Except UsageError Scope :=
  if l.isGiven name then .error .repeatedArgument else .ok (l.add name values)

/-- Lets an argument take effect. -/
def apply (l : Scope) (p : Parameter) (values : List Bytes) : Except UsageError Scope :=
  if p.takesValue && values.isEmpty then .error .invalidValue
  else
    match p.effect with
    | .showHelp => .error (.help (l.spec.help l.path))
    | .showVersion => .error .version
    | .switch => l.addOnce p.name []
    | .set kind => do
      let l ← l.addOnce p.name values
      values.forM (checkValue kind)
      return l
    | .append kind => do
      values.forM (checkValue kind)
      return l.add p.name values

/-- Completes what is waiting for values. -/
def settle (l : Scope) : Except UsageError Scope :=
  match l.pending with
  | none => .ok l
  | some (p, values) => apply { l with pending := none } p values

def settleAndApply (l : Scope) (p : Parameter) (values : List Bytes) : Except UsageError Scope := do
  (← l.settle).apply p values

/-- The next argument is the value of an option. -/
def isAwaiting (l : Scope) : Bool :=
  match l.pending with
  | some (_, []) => !l.trailing
  | _ => false

def await (l : Scope) (p : Parameter) : Except UsageError Scope := do
  return { (← l.settle) with pending := some (p, []) }

def takeValue (l : Scope) (value : Bytes) : Scope :=
  { l with pending := l.pending.map fun (p, values) => (p, values ++ [value]) }

/-! ### Options -/

def equalsSign : UInt8 := 61

@[match_pattern]
def hyphen : UInt8 := 45

/-- The name of a long option, and the value attached to it. -/
def splitLong (b : Bytes) : Bytes × Option Bytes :=
  match b.dropWhile (· ≠ equalsSign) with
  | _ :: value => (b.takeWhile (· ≠ equalsSign), some value)
  | [] => (b, none)

def long (l : Scope) (b : Bytes) : Except UsageError Scope :=
  let (name, attached) := splitLong b
  match l.spec.options.find? (fun p => Bytes.ofText p.name = name), attached with
  | none, _ => .error .unknownArgument
  | some p, some value => if p.takesValue then l.settleAndApply p [value] else .error .tooManyValues
  | some p, none => if p.takesValue then l.await p else l.settleAndApply p []

/-- Letters in a row; the first that takes a value takes all that follows it. -/
def shorts (l : Scope) : Bytes → Except UsageError Scope
  | [] => .ok l
  | b :: rest =>
    match l.spec.options.find? fun p => p.short = some (Char.ofNat b.toNat) with
    | none => .error .unknownArgument
    | some p =>
      if p.takesValue then
        if rest.isEmpty then l.await p
        else l.settleAndApply p [if rest.head? = some equalsSign then rest.drop 1 else rest]
      else
        match l.settleAndApply p [] with
        | .error e => .error e
        | .ok l => shorts l rest

/-! ### Positional arguments -/

def subcommand? (l : Scope) (b : Bytes) : Option Spec :=
  l.spec.allSubcommands.find? fun s => Bytes.ofText s.name = b

def stray (l : Scope) (b : Bytes) : UsageError :=
  if l.spec.hasSubcommands && !(l.trailing && (l.subcommand? b).isSome) then .invalidSubcommand
  else .unknownArgument

def positional (l : Scope) (b : Bytes) : Except UsageError Scope :=
  match l.spec.positionals[l.filled]? with
  | none => .error (l.stray b)
  | some p =>
    if p.isMultiple then
      if (l.pending.map Prod.fst) = some p then .ok (l.takeValue b)
      else do return { (← l.settle) with pending := some (p, [b]) }
    else do return { (← l.settle) with pending := some (p, [b]), filled := l.filled + 1 }

/-- Reads an argument that names no command. -/
def read (l : Scope) (b : Bytes) : Except UsageError Scope :=
  if l.trailing then l.positional b
  else
    match b with
    | [hyphen, hyphen] => .ok { l with trailing := true }
    | hyphen :: hyphen :: name => l.long name
    | hyphen :: c :: letters => l.shorts (c :: letters)
    | _ => if l.isAwaiting then .ok (l.takeValue b) else l.positional b

/-! ### Completion -/

def checkComplete (l : Scope) (named : Bool) : Except UsageError Unit :=
  if !named && l.spec.hasSubcommands then
    .error (if l.given.isEmpty then .helpOnMissing else .missingSubcommand)
  else if (l.spec.options ++ l.spec.positionals).any fun p => p.required && !l.isGiven p.name then
    .error .missingArgument
  else .ok ()

def complete (l : Scope) (named : Bool) : Except UsageError Scope := do
  let l ← l.settle
  l.checkComplete named
  return l

/-! ### What was given -/

def values (l : Scope) (name : String) : List Bytes :=
  (l.given.filter fun g => g.name = name).flatMap Given.values

def path? (l : Scope) (name : String) : Option Path := (l.values name).head?.map Path.mk

def text? (l : Scope) (name : String) : Option String := (l.values name).head?.bind Bytes.toText?

def pathsOf (l : Scope) (name : String) : List Path := (l.values name).map Path.mk

end Scope

/-- Help about the command that the words lead to. -/
def helpAbout (spec : Spec) (path : List String) : List Bytes → UsageError
  | [] => .help (spec.help path)
  | word :: rest =>
    match spec.allSubcommands.find? fun s => Bytes.ofText s.name = word with
    | none => .invalidSubcommand
    | some s => helpAbout s (path ++ [s.name]) rest

/-- The scopes that the arguments lead through, innermost first. -/
def parseScopes (l : Scope) : List Bytes → Except UsageError (List Scope)
  | [] => (l.complete false).map ([·])
  | arg :: rest =>
    match if l.trailing || l.isAwaiting then none else l.subcommand? arg with
    | some s =>
      if s.name = Spec.helpCommand.name then .error (helpAbout l.spec l.path rest)
      else
        match parseScopes (.new s (l.path ++ [s.name])) rest with
        | .error e => .error e
        | .ok scopes => (l.complete true).map fun l => scopes ++ [l]
    | none =>
      match l.read arg with
      | .error e => .error e
      | .ok l => parseScopes l rest

def parse (spec : Spec) (args : List Bytes) : Except UsageError (List Scope) :=
  parseScopes (.new spec [spec.name]) args

end DeployClient.Cli
