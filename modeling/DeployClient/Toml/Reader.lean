import DeployClient.Toml.Document
import DeployClient.Toml.Quoted

/-!
Reading a configuration file.

Every reader takes the characters that are left and returns what it has read with the rest.
Readers that call each other count down a number that the length of the text bounds.
-/

namespace DeployClient.Toml

def skipBlanks (cs : List Char) : List Char := cs.dropWhile isBlankChar

/-- Skips blanks, line breaks and comments inside an array. -/
def skipFiller : Bool → List Char → Option (List Char)
  | _, [] => some []
  | _, '\n' :: r => skipFiller false r
  | _, '\r' :: '\n' :: r => skipFiller false r
  | true, c :: r => if isPlain c then skipFiller true r else none
  | false, c :: r =>
    if isBlankChar c then skipFiller false r
    else if c = '#' then skipFiller true r
    else some (c :: r)

/-- Skips the end of a line, which may hold a comment. -/
def endLine (cs : List Char) : Option (List Char) :=
  let cs := skipBlanks cs
  let cs :=
    match cs with
    | '#' :: r => r.dropWhile isPlain
    | cs => cs
  match cs with
  | [] => some []
  | '\n' :: r => some r
  | '\r' :: '\n' :: r => some r
  | _ => none

/-! ### Keys -/

def isBareKeyChar (c : Char) : Bool :=
  isDigit c || ('a' ≤ c && c ≤ 'z') || ('A' ≤ c && c ≤ 'Z') || c = '_' || c = '-'

def readSimpleKey (cs : List Char) : Option (String × List Char) :=
  match cs with
  | c :: _ =>
    if c = '"' ∨ c = '\'' then (readLineString cs).map fun p => (String.ofList p.1, p.2)
    else
      let key := cs.takeWhile isBareKeyChar
      if key.isEmpty then none else some (String.ofList key, cs.dropWhile isBareKeyChar)
  | [] => none

/-- Keys with points between them, with the blanks after the last. -/
def readKeys : Nat → List Char → Option (List String × List Char)
  | 0, _ => none
  | n + 1, cs =>
    match readSimpleKey (skipBlanks cs) with
    | none => none
    | some (key, r) =>
      match skipBlanks r with
      | '.' :: r => (readKeys n r).map fun p => (key :: p.1, p.2)
      | r => some ([key], r)

/-- A path of keys. -/
def readPath (d : Dialect) (n : Nat) (cs : List Char) : Option (List String × List Char) :=
  (readKeys n cs).filter fun p => d.allows p.1.length

/-! ### Values -/

def readWord (word : String) (v : Value) (cs : List Char) : Option (Value × List Char) :=
  (word.toList.isPrefixOf? cs).map (v, ·)

/-- A value without brackets and braces. -/
def readScalar (cs : List Char) : Option (Value × List Char) :=
  match cs with
  | [] => none
  | c :: _ =>
    if c = '"' ∨ c = '\'' then (readString cs).map fun p => (.string (String.ofList p.1), p.2)
    else if c = 't' then readWord "true" (.boolean true) cs
    else if c = 'f' then readWord "false" (.boolean false) cs
    else readToken cs

mutual

/-- A value that stands inside of `depth` brackets and braces. -/
def readItem (d : Dialect) : Nat → Nat → List Char → Option (Item × List Char)
  | 0, _, _ => none
  | n + 1, depth, cs =>
    match cs with
    | '[' :: r =>
      if d.allows (depth + 1) then
        (readElements d n (depth + 1) r).map fun p => (.array p.1, p.2)
      else none
    | '\x7b' :: r =>
      if d.allows (depth + 1) then
        match skipBlanks r with
        | '\x7d' :: r => some (.inline false [], r)
        | r =>
          match readPairs d n (depth + 1) r with
          | none => none
          | some (pairs, r) => (inlineTable? d pairs).map (·, r)
      else none
    | cs => (readScalar cs).map fun p => (.value p.1, p.2)

/-- The values of an array, from after its opening bracket or a comma. -/
def readElements (d : Dialect) : Nat → Nat → List Char → Option (List Item × List Char)
  | 0, _, _ => none
  | n + 1, depth, cs =>
    match skipFiller false cs with
    | none => none
    | some (']' :: r) => some ([], r)
    | some cs =>
      match readItem d n depth cs with
      | none => none
      | some (i, r) =>
        match skipFiller false r with
        | some (',' :: r) => (readElements d n depth r).map fun p => (i :: p.1, p.2)
        | some (']' :: r) => some ([i], r)
        | _ => none

/-- The pairs of a table between braces, from after the brace or a comma. -/
def readPairs (d : Dialect) :
    Nat → Nat → List Char → Option (List (List String × Item) × List Char)
  | 0, _, _ => none
  | n + 1, depth, cs =>
    match readPath d n cs with
    | some (keys, '=' :: r) =>
      match readItem d n depth (skipBlanks r) with
      | none => none
      | some (i, r) =>
        match skipBlanks r with
        | ',' :: r => (readPairs d n depth r).map fun p => ((keys, i) :: p.1, p.2)
        | '\x7d' :: r => some ([(keys, i)], r)
        | _ => none
    | _ => none

end

/-! ### Documents -/

/-- A header, from after its opening bracket. -/
def readHeader (d : Dialect) (n : Nat) (doc : Document) (cs : List Char) :
    Option (Document × List Char) :=
  match cs with
  | '[' :: r =>
    match readPath d n r with
    | some (keys, ']' :: ']' :: r) => (doc.header openElement keys).map (·, r)
    | _ => none
  | r =>
    match readPath d n r with
    | some (keys, ']' :: r) => (doc.header openTable keys).map (·, r)
    | _ => none

def readAssignment (d : Dialect) (n : Nat) (doc : Document) (cs : List Char) :
    Option (Document × List Char) :=
  match readPath d n cs with
  | some (keys, '=' :: r) =>
    match readItem d n 0 (skipBlanks r) with
    | none => none
    | some (i, r) => (doc.assign keys i).map (·, r)
  | _ => none

def readLines (d : Dialect) : Nat → Document → List Char → Option Document
  | 0, _, _ => none
  | n + 1, doc, cs =>
    match skipBlanks cs with
    | [] => some doc
    | '\n' :: r => readLines d n doc r
    | '\r' :: '\n' :: r => readLines d n doc r
    | '#' :: r =>
      match endLine ('#' :: r) with
      | none => none
      | some r => readLines d n doc r
    | '[' :: r =>
      match readHeader d n doc r with
      | none => none
      | some (doc, r) =>
        match endLine r with
        | none => none
        | some r => readLines d n doc r
    | cs =>
      match readAssignment d n doc cs with
      | none => none
      | some (doc, r) =>
        match endLine r with
        | none => none
        | some r => readLines d n doc r

def dropMark (cs : List Char) : List Char :=
  match cs with
  | '\uFEFF' :: r => r
  | cs => cs

/-- The table that the text of a file stands for. -/
def read? (d : Dialect) (text : String) : Option Entries :=
  let cs := dropMark text.toList
  (readLines d (2 * cs.length + 2) .empty cs).bind (Document.entries? d)

end DeployClient.Toml
