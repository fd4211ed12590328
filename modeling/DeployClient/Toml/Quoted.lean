/-!
Reading strings.

A basic string is read one character at a time, in a phase that tells what the character
may be. In strings of many lines a line break that comes with a carriage return is read as
a line feed alone, and a backslash at the end of a line takes back the blanks after it.
-/

namespace DeployClient.Toml

def isBlankChar (c : Char) : Bool := c = ' ' || c = '\t'

/-- No control character but the tab. -/
def isPlain (c : Char) : Bool := c = '\t' || (' ' ≤ c && c ≠ '\x7f')

def escape? : Char → Option Char
  | 'b' => some '\x08'
  | 't' => some '\t'
  | 'n' => some '\n'
  | 'f' => some '\x0c'
  | 'r' => some '\r'
  | '"' => some '"'
  | '\\' => some '\\'
  | _ => none

def hexValue? (c : Char) : Option Nat :=
  if '0' ≤ c ∧ c ≤ '9' then some (c.toNat - 48)
  else if 'a' ≤ c ∧ c ≤ 'f' then some (c.toNat - 87)
  else if 'A' ≤ c ∧ c ≤ 'F' then some (c.toNat - 55)
  else none

/-- Surrogates and numbers out of range are no characters. -/
def scalar? (n : Nat) : Option Char :=
  if n.isValidChar then some (Char.ofNat n) else none

inductive Phase where
  | text
  | escape
  | hex (left value : Nat)
  | afterReturn
  /-- Blanks between a backslash and the line break. -/
  | lineEnd
  | lineEndReturn
  /-- Blanks after the line break. -/
  | gap
  | gapReturn
deriving DecidableEq

def isGapChar (c : Char) : Bool := isBlankChar c || c = '\n' || c = '\r'

/-- The phase for what comes after a character of a gap. -/
def afterGap (rest : List Char) : Phase :=
  match rest with
  | c :: _ => if isGapChar c then .gap else .text
  | [] => .text

/-- What follows two of the character. -/
def afterTwo? (c : Char) (rest : List Char) : Option (List Char) :=
  match rest with
  | a :: b :: r => if a = c ∧ b = c then some r else none
  | _ => none

def closeMany (rest : List Char) : List Char × List Char :=
  match rest with
  | '"' :: '"' :: r => (['"', '"'], r)
  | '"' :: r => (['"'], r)
  | r => ([], r)

abbrev Text := Option (List Char × List Char)

def Text.cons (c : Char) (t : Text) : Text := t.map fun p => (c :: p.1, p.2)

/-- The characters of a string up to its closing quotes, and what follows them. -/
def readBasic (many : Bool) : Phase → List Char → Text
  | _, [] => none
  | .text, c :: r =>
    if c = '"' then
      if many then
        match afterTwo? '"' r with
        | some r => some (closeMany r)
        | none => (readBasic many .text r).cons '"'
      else some ([], r)
    else if c = '\\' then readBasic many .escape r
    else if many ∧ c = '\n' then (readBasic many .text r).cons '\n'
    else if many ∧ c = '\r' then readBasic many .afterReturn r
    else if isPlain c then (readBasic many .text r).cons c
    else none
  | .escape, c :: r =>
    match escape? c with
    | some e => (readBasic many .text r).cons e
    | none =>
      if c = 'u' then readBasic many (.hex 4 0) r
      else if c = 'U' then readBasic many (.hex 8 0) r
      else if many ∧ isBlankChar c then readBasic many .lineEnd r
      else if many ∧ c = '\n' then readBasic many (afterGap r) r
      else if many ∧ c = '\r' then readBasic many .lineEndReturn r
      else none
  | .hex left value, c :: r =>
    match hexValue? c with
    | none => none
    | some d =>
      let value := value * 16 + d
      if left ≤ 1 then
        match scalar? value with
        | some e => (readBasic many .text r).cons e
        | none => none
      else readBasic many (.hex (left - 1) value) r
  | .afterReturn, c :: r => if c = '\n' then (readBasic many .text r).cons '\n' else none
  | .lineEnd, c :: r =>
    if isBlankChar c then readBasic many .lineEnd r
    else if c = '\n' then readBasic many (afterGap r) r
    else if c = '\r' then readBasic many .lineEndReturn r
    else none
  | .lineEndReturn, c :: r => if c = '\n' then readBasic many (afterGap r) r else none
  | .gap, c :: r =>
    if c = '\r' then readBasic many .gapReturn r else readBasic many (afterGap r) r
  | .gapReturn, c :: r => if c = '\n' then readBasic many (afterGap r) r else none

def closeManyLiteral (rest : List Char) : List Char × List Char :=
  match rest with
  | '\'' :: '\'' :: r => (['\'', '\''], r)
  | '\'' :: r => (['\''], r)
  | r => ([], r)

def readLiteral (many : Bool) : List Char → Text
  | [] => none
  | c :: r =>
    if c = '\'' then
      if many then
        match afterTwo? '\'' r with
        | some r => some (closeManyLiteral r)
        | none => (readLiteral many r).cons '\''
      else some ([], r)
    else if many ∧ c = '\n' then (readLiteral many r).cons '\n'
    else if many ∧ c = '\r' then
      if r.head? = some '\n' then readLiteral many r else none
    else if isPlain c then (readLiteral many r).cons c
    else none

/-- A line break right after the opening quotes is no part of the string. -/
def dropBreak (cs : List Char) : List Char :=
  match cs with
  | '\n' :: r => r
  | '\r' :: '\n' :: r => r
  | r => r

/-- A string, from its opening quotes on. -/
def readString (cs : List Char) : Text :=
  match cs with
  | '"' :: '"' :: '"' :: r => readBasic true .text (dropBreak r)
  | '"' :: r => readBasic false .text r
  | '\'' :: '\'' :: '\'' :: r => readLiteral true (dropBreak r)
  | '\'' :: r => readLiteral false r
  | _ => none

/-- A string on one line, from its opening quote on. -/
def readLineString (cs : List Char) : Text :=
  match cs with
  | '"' :: r => readBasic false .text r
  | '\'' :: r => readLiteral false r
  | _ => none

end DeployClient.Toml
