import DeployClient.Cli.Report

/-!
The program as a whole: from its arguments to what it leaves behind.

The arguments are read first, then the configuration, and then the command does its work in a
session. Asking for help or for the version ends the program early and is no failure.
-/

namespace DeployClient.Program

open Cli (Command CommandLine UsageError)
open Settings (Config Environment)

inductive Error where
  | usage (error : UsageError)
  | config (error : Settings.Error)
  | login (error : Login.Error)
  | archive (error : ArchiveFiles.Error)
  | build (error : BuildImage.Error)
  | deploy (error : Deploy.Error)
deriving DecidableEq, Inhabited

def Error.chain : Error → List String
  | .usage _ => []
  | .config e => e.chain
  | .login e => e.chain
  | .archive e => e.chain
  | .build e => e.chain
  | .deploy e => e.chain

/-- What does not change while the program runs. -/
structure Surroundings where
  home : Path
  environment : Environment

def runCommand (configPath : Path) (config : Config) : Command → Action Error Unit
  | .login l => (l.run configPath).wrap .login
  | .archive a => a.run.wrap .archive
  | .build b => (b.run config).wrap .build
  | .deploy d => (d.run config).wrap .deploy

/-- How the program ended, and the session afterwards. The level of the log is known once the
configuration is. -/
structure Outcome where
  result : Except Error Unit
  level : Level
  session : Session

def run (around : Surroundings) (args : List Bytes) (s : Session) : Outcome :=
  match CommandLine.parse args with
  | .error e => ⟨.error (.usage e), .off, s⟩
  | .ok line =>
    let configPath := line.configFile.getD (Config.defaultPath around.home)
    match Config.load s.fs around.environment configPath with
    | .error e => ⟨.error (.config e), .off, s⟩
    | .ok config =>
      match runCommand configPath config line.command s with
      | .ok () s => ⟨.ok (), config.level, s⟩
      | .error e s => ⟨.error e, config.level, s⟩

namespace Outcome

def exitCode (o : Outcome) : Nat :=
  match o.result with
  | .ok () | .error (.usage (.help _)) | .error (.usage .version) => 0
  | .error (.usage _) => 2
  | .error _ => 1

def lines (ls : List String) : Bytes := ls.flatMap fun l => Bytes.ofText l ++ [Bytes.newline]

def output (o : Outcome) : Bytes :=
  match o.result with
  | .error (.usage (.help ls)) => lines ls
  | .error (.usage .version) => lines [CommandLine.versionLine]
  | _ => o.session.printed

/-- The line of the log for an event at a time. -/
def logLine (time : String) (e : Event) : Bytes :=
  lines [s!"{time} {e.level.column} {e.text}"]

/-- What a note leaves in the error output. -/
def noted (o : Outcome) (time : String) : Note → Bytes
  | .diagnostic d => d.written
  | .event e => if o.level.shows e.level then logLine time e else []

def errorOutput (o : Outcome) (time : String) : Bytes :=
  o.session.notes.flatMap (o.noted time)
    ++ match o.result with
      | .ok () | .error (.usage _) => []
      | .error e => lines [Cli.Report.text e.chain]

end Outcome

end DeployClient.Program
