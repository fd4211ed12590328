import DeployClient.Glob.Reader
import DeployClient.Glob.Match
import DeployClient.Text.Blank

/-!
One line of an ignore file.

Blank lines and comments are no rules. An exclamation mark re-includes, a slash at the front
or inside anchors the pattern, and a slash at the end asks for directories.
-/

namespace DeployClient.Ignore

structure Rule where
  pattern : Glob.Pattern
  reincludes : Bool
  directoriesOnly : Bool
deriving Inhabited

structure LineError where
  line : String
  error : Glob.PatternError
deriving DecidableEq, Inhabited

def LineError.message (e : LineError) : String :=
  s!"error parsing glob '{e.line}': {e.error.message}"

/-- White space at the end is cut, unless the last of it is escaped. -/
def trimLine (line : List Char) : List Char :=
  if ['\\', ' '].isSuffixOf line then line else Text.trimEnd line

/-- The parts of a line that are no pattern. -/
structure Marking where
  reincludes : Bool
  anchored : Bool
  body : List Char

def markingOf (line : List Char) : Marking :=
  match line with
  | '\\' :: '!' :: rest => ⟨false, false, '!' :: rest⟩
  | '\\' :: '#' :: rest => ⟨false, false, '#' :: rest⟩
  | '!' :: '/' :: rest => ⟨true, true, rest⟩
  | '!' :: rest => ⟨true, false, rest⟩
  | '/' :: rest => ⟨false, true, rest⟩
  | rest => ⟨false, false, rest⟩

/-- Cuts a slash at the end, with the backslash that may stand before it. -/
def cutSlash (body : List Char) : Bool × List Char :=
  if body.getLast? = some '/' then
    let body := body.dropLast
    (true, if body.getLast? = some '\\' then body.dropLast else body)
  else (false, body)

def hasTreeInFront (body : List Char) : Bool :=
  ['*', '*', '/'].isPrefixOf body || body = ['*', '*']

/-- A pattern without a slash may match at any depth; one that ends in `/**` leaves out the
directory itself. -/
def patternText (anchored : Bool) (body : List Char) : List Char :=
  let body :=
    if !anchored && !body.contains '/' && !hasTreeInFront body then '*' :: '*' :: '/' :: body
    else body
  if ['/', '*', '*'].isSuffixOf body then body ++ ['/', '*'] else body

def Rule.ofLine? (text : String) : Except LineError (Option Rule) :=
  let line := text.toList
  if line.head? = some '#' then .ok none
  else
    let line := trimLine line
    if line.isEmpty then .ok none
    else
      let marking := markingOf line
      let (directoriesOnly, body) := cutSlash marking.body
      match Glob.Pattern.read (patternText marking.anchored body) with
      | .error e => .error ⟨String.ofList line, e⟩
      | .ok pattern => .ok (some ⟨pattern, marking.reincludes, directoriesOnly⟩)

/-- The rule speaks about this name. -/
def Rule.applies (r : Rule) (name : Bytes) (isDirectory : Bool) : Bool :=
  r.pattern.isMatch name && (!r.directoriesOnly || isDirectory)

end DeployClient.Ignore
