import DeployClient.Decimal.Shortest
import DeployClient.Toml.Quoted
import DeployClient.Toml.Scalar

/-!
Writing a configuration file.

First come the values of a table, one on a line, and then its subtables, each under a header
of its own. An array that holds only tables is written as tables too. A table inside of any
other array stands on the line of the array, between braces, with all that it holds.
-/

namespace DeployClient.Toml

/-! ### Strings -/

def hexDigit (n : Nat) : Char := if n < 10 then Char.ofNat (48 + n) else Char.ofNat (55 + n)

def unicodeEscape (n : Nat) : List Char :=
  ['\\', 'u', hexDigit (n / 4096 % 16), hexDigit (n / 256 % 16), hexDigit (n / 16 % 16),
    hexDigit (n % 16)]

def escaped (many : Bool) (c : Char) : List Char :=
  if c = '\n' then if many then ['\n'] else ['\\', 'n']
  else if c = '\x08' then ['\\', 'b']
  else if c = '\t' then ['\\', 't']
  else if c = '\x0c' then ['\\', 'f']
  else if c = '\r' then ['\\', 'r']
  else if c = '"' then ['\\', '"']
  else if c = '\\' then ['\\', '\\']
  else if c < ' ' ∨ c = '\x7f' then unicodeEscape c.toNat
  else [c]

/-- The longest run of apostrophes. -/
def longestRun : Nat → Nat → List Char → Nat
  | longest, current, [] => max longest current
  | longest, current, c :: cs =>
    if c = '\'' then longestRun longest (current + 1) cs
    else longestRun (max longest current) 0 cs

/-- A string with a backslash is written as it is, if nothing in it asks for an escape. -/
def staysLiteral (cs : List Char) : Bool :=
  cs.contains '\\' && cs.all (fun c => c = '\n' || isPlain c) && longestRun 0 0 cs < 3
    && cs.getLast? ≠ some '\''

def quotes (c : Char) : List Char := [c, c, c]

def stringText (s : String) : List Char :=
  let cs := s.toList
  let many := cs.contains '\n'
  if staysLiteral cs then
    if many then quotes '\'' ++ '\n' :: cs ++ quotes '\''
    else if cs.contains '\'' then quotes '\'' ++ cs ++ quotes '\''
    else '\'' :: cs ++ ['\'']
  else
    let body := cs.flatMap (escaped many)
    if many then quotes '"' ++ '\n' :: body ++ quotes '"' else '"' :: body ++ ['"']

def isBareKey (cs : List Char) : Bool :=
  !cs.isEmpty && cs.all fun c =>
    isDigit c || ('a' ≤ c && c ≤ 'z') || ('A' ≤ c && c ≤ 'Z') || c = '_' || c = '-'

def keyText (key : String) : List Char :=
  let cs := key.toList
  if isBareKey cs then cs else '"' :: cs.flatMap (escaped false) ++ ['"']

def pathText (path : List String) : List Char :=
  List.intercalate ['.'] (path.map keyText)

/-! ### Numbers, dates and times -/

def signText (negative : Bool) : List Char := if negative then ['-'] else []

def floatText : Decimal.Binary64 → List Char
  | .infinite n => signText n ++ ['i', 'n', 'f']
  | .nan n => signText n ++ ['n', 'a', 'n']
  | .finite n m e =>
    if m = 0 then signText n ++ ['0', '.', '0']
    else
      let ds := (Decimal.Shortest.digits m e).positional
      signText n ++ ds ++ if ds.contains '.' then [] else ['.', '0']

def integerText (i : Int) : List Char :=
  signText (i < 0) ++ Decimal.digitChars i.natAbs

def padded (width n : Nat) : List Char :=
  let ds := Decimal.digitChars n
  List.replicate (width - ds.length) '0' ++ ds

def dateText (d : Date) : List Char :=
  padded 4 d.year ++ '-' :: padded 2 d.month ++ '-' :: padded 2 d.day

def fractionText (nano : Nat) : List Char :=
  if nano = 0 then []
  else '.' :: ((padded 9 nano).reverse.dropWhile (· = '0')).reverse

def timeText (t : Time) : List Char :=
  padded 2 t.hour ++ ':' :: padded 2 t.minute ++ ':' :: padded 2 t.second
    ++ fractionText t.nanosecond

def offsetText : Offset → List Char
  | .zulu => ['Z']
  | .minutes m =>
    (if m < 0 then '-' else '+') :: padded 2 (m.natAbs / 60) ++ ':' :: padded 2 (m.natAbs % 60)

def momentText (m : Moment) : List Char :=
  let date := (m.date.map dateText).getD []
  let time := (m.time.map timeText).getD []
  let mark := if m.date.isSome ∧ m.time.isSome then ['T'] else []
  date ++ mark ++ time ++ (m.offset.map offsetText).getD []

/-! ### Arrays and tables -/

/-- An array that is written as tables. -/
def Value.isTableArray : Value → Bool
  | .array vs => !vs.isEmpty && vs.all Value.isTable
  | _ => false

/-- The value stands on a line of its own with its key, and not under a header. -/
def Value.isInline (v : Value) : Bool := !v.isTable && !v.isTableArray

/-- The order of a table's own entries: plain values, arrays with tables in them, tables. -/
def Value.rank : Value → Nat
  | .table _ => 2
  | .array vs => if vs.any Value.isTable then 1 else 0
  | _ => 0

/-- Parts of one rank keep their order. -/
def inRankOrder {α : Type} (parts : List (Nat × α)) : List α :=
  let ofRank (r : Nat) := (parts.filter fun p => p.1 = r).map Prod.snd
  ofRank 0 ++ ofRank 1 ++ ofRank 2

def ranked (es : Entries) : Entries := inRankOrder (es.map fun e => (e.2.rank, e))

def commaSeparated (parts : List (List Char)) : List Char :=
  List.intercalate [',', ' '] parts

def braced (pairs : List (List Char)) : List Char :=
  match pairs with
  | [] => ['\x7b', '\x7d']
  | ps => '\x7b' :: ' ' :: commaSeparated ps ++ [' ', '\x7d']

mutual

def valueText : Value → List Char
  | .string s => stringText s
  | .integer i => integerText i
  | .float f => floatText f
  | .boolean b => if b then ['t', 'r', 'u', 'e'] else ['f', 'a', 'l', 's', 'e']
  | .moment m => momentText m
  | .array vs => '[' :: commaSeparated (elementTexts vs) ++ [']']
  | .table es => braced (inRankOrder (pairTexts es))

def elementTexts : List Value → List (List Char)
  | [] => []
  | v :: vs => valueText v :: elementTexts vs

def pairTexts : List (String × Value) → List (Nat × List Char)
  | [] => []
  | (k, v) :: es => (v.rank, keyText k ++ ' ' :: '=' :: ' ' :: valueText v) :: pairTexts es

end

def lineText (e : String × Value) : List Char :=
  keyText e.1 ++ ' ' :: '=' :: ' ' :: valueText e.2 ++ ['\n']

/-- The lines of the values among the entries. -/
def bodyText (es : Entries) : List Char :=
  (es.filter fun e => e.2.isInline).flatMap lineText

def headerText (path : List String) : List Char := '\n' :: '[' :: pathText path ++ [']', '\n']

def elementHeaderText (path : List String) : List Char :=
  '\n' :: '[' :: '[' :: pathText path ++ [']', ']', '\n']

/-- A header can go without saying if the table has subtables only. -/
def needsHeader (es : Entries) : Bool := es.isEmpty || es.any fun e => e.2.isInline

mutual

/-- What a value adds below the lines: its tables with their headers. -/
def sections (path : List String) : Value → List Char
  | .table es =>
    (if needsHeader es then headerText path else []) ++ bodyText (ranked es)
      ++ (inRankOrder (entrySections path es)).flatten
  | .array vs => if (Value.array vs).isTableArray then elementSections path vs else []
  | .string _ => []
  | .integer _ => []
  | .float _ => []
  | .boolean _ => []
  | .moment _ => []

def elementSections (path : List String) : List Value → List Char
  | [] => []
  | .table es :: vs =>
    elementHeaderText path ++ bodyText (ranked es)
      ++ (inRankOrder (entrySections path es)).flatten ++ elementSections path vs
  | _ :: vs => elementSections path vs

def entrySections (path : List String) : List (String × Value) → List (Nat × List Char)
  | [] => []
  | (k, v) :: es => (v.rank, sections (path ++ [k]) v) :: entrySections path es

end

/-- The text of a file. The entries of the file itself keep the order of their keys. -/
def render (es : Entries) : String :=
  String.ofList (bodyText es ++ (entrySections [] es).flatMap Prod.snd)

end DeployClient.Toml
