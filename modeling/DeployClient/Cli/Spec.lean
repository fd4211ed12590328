/-!
What the commands of a program accept.

A command has options, positional arguments and commands below it. A command with others
below it also has one that prints help about them.
-/

namespace DeployClient.Cli

/-- What a value has to be: text, or a path that is not empty. -/
inductive ValueKind where
  | text
  | path
deriving DecidableEq, Inhabited

/-- What giving an argument does. -/
inductive Effect where
  | switch
  | set (kind : ValueKind)
  | append (kind : ValueKind)
  | showHelp
  | showVersion
deriving DecidableEq, Inhabited

def Effect.kind? : Effect → Option ValueKind
  | .set kind => some kind
  | .append kind => some kind
  | _ => none

structure Parameter where
  name : String
  /-- The letter of an option; positional arguments have none. -/
  short : Option Char
  effect : Effect
  required : Bool
  about : String
  /-- What is taken if nothing is given. -/
  fallback : Option String
deriving DecidableEq, Inhabited

namespace Parameter

def takesValue (p : Parameter) : Bool := p.effect.kind?.isSome

def isMultiple (p : Parameter) : Bool :=
  match p.effect with
  | .append _ => true
  | _ => false

end Parameter

structure Spec where
  name : String
  about : String
  options : List Parameter
  positionals : List Parameter
  subcommands : List Spec
deriving Inhabited

namespace Spec

def helpOption : Parameter := ⟨"help", some 'h', .showHelp, false, "Print help", none⟩

def versionOption : Parameter := ⟨"version", some 'V', .showVersion, false, "Print version", none⟩

def helpCommand : Spec :=
  { name := "help"
    about := "Print this message or the help of the given subcommand(s)"
    options := []
    positionals :=
      [⟨"command", none, .append .text, false, "Print help for the subcommand(s)", none⟩]
    subcommands := [] }

def hasSubcommands (s : Spec) : Bool := !s.subcommands.isEmpty

def allSubcommands (s : Spec) : List Spec :=
  if s.hasSubcommands then s.subcommands ++ [helpCommand] else []

end Spec

end DeployClient.Cli
