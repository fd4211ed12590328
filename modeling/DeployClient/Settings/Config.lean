import DeployClient.FileSystem.Basic
import DeployClient.Log
import DeployClient.Settings.EnvironmentValue
import DeployClient.Toml.Printer

/-!
The configuration of the client: where the server is, the token that it asks for, and how
much is logged.

The configuration comes from a file, and variables of the environment take precedence over
it. Storing credentials changes two entries of the file and keeps the others.
-/

namespace DeployClient.Settings

open Toml (Value)

structure Config where
  target : Option String
  token : Option String
  level : Level
deriving DecidableEq, Inhabited

/-- Why there is no configuration to load: the file cannot be read, its text is no TOML, or an entry
has a value that it cannot have. -/
inductive Fault where
  | file (error : IoError)
  | text
  | entry (key : String)
deriving DecidableEq, Inhabited

def Fault.message : Fault → String
  | .file e => e.message
  | .text => "the configuration file is not TOML"
  | .entry key => s!"invalid value for key \x60{key}\x60"

inductive Error where
  | unreadable (fault : Fault)
  | io (error : IoError)
  | malformed
  | notLoggedIn
deriving DecidableEq, Inhabited

def Error.message : Error → String
  | .unreadable f => f.message
  | .io e => e.message
  | .malformed => "malformed configuration file"
  | .notLoggedIn => "not logged in, run \x60paas login\x60 first"

/-- The variables of the environment, with their names. -/
abbrev Environment := List (String × String)

/-- How the file is read for its settings. -/
def loadingDialect : Toml.Dialect := ⟨80, false, false⟩

/-- How the file is read to be written back with other credentials. -/
def storingDialect : Toml.Dialect := ⟨128, true, true⟩

/-! ### Layers -/

/-- Variables with these first letters, in either case, belong to the configuration. -/
def variableStart : List Char := "paas_".toList

/-- The keys that a variable's name leads down; an underscore or a point goes one down. -/
def keysOf? (name : String) : Option (List String) :=
  match variableStart.isPrefixOf? (foldCase name.toList) with
  | none => none
  | some rest =>
    let parts := (Text.trim rest).splitOnP fun c => c = '_' || c = '.'
    if parts.any List.isEmpty then none else some (parts.map String.ofList)

/-- The entry that keys lead down to. -/
def nest (v : Value) : List String → Toml.Entries
  | [] => []
  | [k] => [(k, v)]
  | k :: ks => [(k, .table (nest v ks))]

mutual

/-- The second value takes precedence; two tables are joined. -/
def overlay : Value → Value → Value
  | .table es, .table fs => .table (overlayEntries es fs)
  | _, v => v

def overlayEntries (es : Toml.Entries) : Toml.Entries → Toml.Entries
  | [] => es
  | (k, v) :: fs =>
    overlayEntries (Toml.insert k (match Toml.lookup? k es with
      | some w => overlay w v
      | none => v) es) fs

end

def environmentEntries (env : Environment) : Toml.Entries :=
  env.foldl (fun es e =>
    match keysOf? e.1 with
    | some keys => overlayEntries es (nest (valueOf e.2) keys)
    | none => es) []

/-! ### Reading the settings out -/

def levelNames : List (String × Level) :=
  [("off", .off), ("error", .error), ("warn", .warn), ("info", .info), ("debug", .debug),
    ("trace", .trace)]

def levels : List Level := [.off, .error, .warn, .info, .debug, .trace]

/-- A level by its number or by its name in any case; an empty name stands for errors. -/
def levelOf? (s : String) : Option Level :=
  let cs := s.toList
  let digits :=
    match cs with
    | '+' :: r => r
    | cs => cs
  match if allDigits digits then levels[Toml.numberOf 10 digits]? else none with
  | some l => some l
  | none =>
    if cs.isEmpty then some .error
    else (levelNames.find? fun e => e.1.toList = foldCase cs).map Prod.snd

def optionalString? : Option Value → Option (Option String)
  | none => some none
  | some (.string s) => some (some s)
  | some _ => none

/-- A table with a level, or a list that begins with one. -/
def loggingLevel? : Option Value → Option Level
  | none => some .warn
  | some (.table es) =>
    match Toml.lookup? "level" es with
    | some (.string s) => levelOf? s
    | _ => none
  | some (.array (.string s :: _)) => levelOf? s
  | some _ => none

/-- What an entry says, if it has a value that it can have. -/
def entry {α : Type} (key : String) (read? : Option Value → Option α) (es : Toml.Entries) :
    Except Fault α :=
  match read? (Toml.lookup? key es) with
  | some a => .ok a
  | none => .error (.entry key)

namespace Config

def default : Config := ⟨none, none, .warn⟩

/-- The entries are read in the order of their keys. -/
def ofEntries (es : Toml.Entries) : Except Fault Config := do
  let level ← entry "logging" loggingLevel? es
  let target ← entry "target" optionalString? es
  let token ← entry "token" optionalString? es
  return ⟨target, token, level⟩

def combine (file : Toml.Entries) (env : Environment) : Except Fault Config :=
  ofEntries (overlayEntries file (environmentEntries env))

/-! ### Loading -/

/-- A relative path is looked for in a directory and then in those above it. -/
def searchUp? (fs : FileSystem) (path : Path) : List Path → Option Path
  | [] => none
  | dir :: above =>
    if fs.isFile (dir.join path) then some (dir.join path) else searchUp? fs path above

def find? (fs : FileSystem) (path : Path) : Option Path :=
  if path.isAbsolute then if fs.isFile path then some path else none
  else
    match fs.currentDir with
    | .error _ => none
    | .ok cwd => searchUp? fs path (cwd :: cwd.parents)

/-- The entries of the configuration file; there are none if there is no file. -/
def fileEntries (fs : FileSystem) (path : Path) : Except Fault Toml.Entries :=
  match find? fs path with
  | none => .ok []
  | some p =>
    match fs.readText p with
    | .error e => .error (.file e)
    | .ok text =>
      match Toml.read? loadingDialect text with
      | some es => .ok es
      | none => .error .text

def load (fs : FileSystem) (env : Environment) (path : Path) : Except Error Config :=
  ((fileEntries fs path).bind fun es => combine es env).mapError .unreadable

/-- The file in the home directory. -/
def defaultPath (home : Path) : Path := home.join (Path.ofText ".paas/config.toml")

/-! ### What it is for -/

def requireToken (c : Config) : Except Error String :=
  match c.token with
  | some t => .ok t
  | none => .error .notLoggedIn

def trimSlashes (s : String) : String :=
  String.ofList (s.toList.reverse.dropWhile (· = '/')).reverse

/-- The address of an endpoint. -/
def url (c : Config) (path : String) : Except Error String :=
  match c.target with
  | some t => .ok (trimSlashes t ++ path)
  | none => .error .notLoggedIn

def versionedUrl (c : Config) (version path : String) : Except Error String :=
  c.url ("/" ++ version ++ path)

end Config

/-! ### Storing credentials -/

def storedEntries (fs : FileSystem) (path : Path) : Except Error Toml.Entries :=
  match fs.readText path with
  | .ok text =>
    match Toml.read? storingDialect text with
    | some es => .ok es
    | none => .error .malformed
  | .error e => if e.isNotFound then .ok [] else .error (.io e)

def withCredentials (target token : String) (es : Toml.Entries) : Toml.Entries :=
  Toml.insert "token" (.string token) (Toml.insert "target" (.string target) es)

/-- Makes the directory of the file if it is not there. -/
def makeParent (fs : FileSystem) (path : Path) : Except OsError Unit × FileSystem :=
  match path.parent? with
  | some parent => fs.makeAlong (parent :: parent.parents)
  | none => (.ok (), fs)

/-- The file system afterwards; directories that were made stay even if what follows fails. -/
def writeCredentials (fs : FileSystem) (path : Path) (target token : String) :
    Except Error Unit × FileSystem :=
  match storedEntries fs path with
  | .error e => (.error e, fs)
  | .ok es =>
    match makeParent fs path with
    | (.error e, made) => (.error (.io (.os e)), made)
    | (.ok _, made) =>
      let text := Toml.render (withCredentials target token es)
      match made.write path (Bytes.ofText text) 0o644 false with
      | (.error e, done) => (.error (.io (.os e)), done)
      | (.ok _, done) => (.ok (), done)

end DeployClient.Settings
