import DeployClient.Text.Blank
import DeployClient.Toml.Reader

/-!
Values in environment variables.

A variable may hold a truth value, a number, a quoted string, a quoted character, an array or
a table. Text that reads as none of these as a whole is taken as it stands.
-/

namespace DeployClient.Settings

open Toml (Value)

def isAsciiBlank (c : Char) : Bool :=
  c = ' ' || c = '\t' || c = '\n' || c = '\x0c' || c = '\r'

def isSeparator (c : Char) : Bool := [',', '\x7b', '\x7d', '[', ']'].contains c

def isKeyChar (c : Char) : Bool := Toml.isBareKeyChar c

def skip (cs : List Char) : List Char := cs.dropWhile isAsciiBlank

/-! ### Numbers -/

def allDigits (cs : List Char) : Bool := !cs.isEmpty && cs.all Toml.isDigit

def foldCase (cs : List Char) : List Char := cs.map Char.toLower

/-- Digits around a point, of which some are there, with an exponent that is complete. -/
def isDecimal (body : List Char) : Bool :=
  let (mantissa, e) := Toml.splitAtFirst (fun c => c = 'e' || c = 'E') body
  let (whole, fraction) := Toml.splitAtFirst (· = '.') mantissa
  let digits := whole ++ fraction.getD []
  let exponent :=
    match e with
    | none => true
    | some cs => allDigits (Toml.splitSign cs).2
  allDigits digits && exponent

def isFloat (cs : List Char) : Bool :=
  let body := (Toml.splitSign cs).2
  [['i', 'n', 'f'], ['n', 'a', 'n'], "infinity".toList].contains (foldCase body) || isDecimal body

/-- The float that such a text stands for. One that is too large is infinite. -/
def floatOf (cs : List Char) : Decimal.Binary64 :=
  let (negative, body) := Toml.splitSign cs
  if foldCase body = ['n', 'a', 'n'] then .nan negative
  else if [['i', 'n', 'f'], "infinity".toList].contains (foldCase body) then .infinite negative
  else
    let (mantissa, e) := Toml.splitAtFirst (fun c => c = 'e' || c = 'E') body
    let (whole, fraction) := Toml.splitAtFirst (· = '.') mantissa
    let digits := fraction.getD []
    let shift :=
      let (down, body) := Toml.splitSign (e.getD [])
      Toml.signed down (Toml.numberOf 10 body)
    .ofDecimal negative (Toml.numberOf 10 (whole ++ digits)) (shift - digits.length)

def leastInteger : Int := -0x8000000000000000
def greatestNatural : Int := 0xFFFFFFFFFFFFFFFF

def integer? (cs : List Char) : Option Int :=
  let (negative, body) := Toml.splitSign cs
  if allDigits body then
    let i := Toml.signed negative (Toml.numberOf 10 body)
    if leastInteger ≤ i ∧ i ≤ greatestNatural then some i else none
  else none

/-- A bare word: a number, or text. -/
def wordValue (word : List Char) : Value :=
  let word := Text.trim word
  if word.contains '.' ∧ isFloat word then .float (floatOf word)
  else
    match integer? word with
    | some i => .integer i
    | none => .string (String.ofList word)

/-! ### Reading -/

abbrev Read (α : Type) := Option (α × List Char)

/-- The characters up to a quote that no backslash stands before. -/
def quotedBody : Bool → List Char → Read (List Char)
  | _, [] => none
  | true, c :: r => (quotedBody false r).map fun p => (c :: p.1, p.2)
  | false, c :: r =>
    if c = '"' then some ([], c :: r)
    else (quotedBody (c = '\\') r).map fun p => (c :: p.1, p.2)

/-- A quoted string; its escapes are those of a configuration file. -/
def readQuoted (cs : List Char) : Read String :=
  match cs with
  | '"' :: r =>
    match quotedBody false r with
    | some (body, '"' :: rest) =>
      match Toml.readBasic false .text (body ++ ['"']) with
      | some (text, []) => some (String.ofList text, rest)
      | _ => none
    | _ => none
  | _ => none

def readKey (cs : List Char) : Read String :=
  match cs with
  | '"' :: _ => readQuoted cs
  | cs =>
    let key := cs.takeWhile isKeyChar
    if key.isEmpty then none else some (String.ofList key, cs.dropWhile isKeyChar)

mutual

def readValue : Nat → List Char → Read Value
  | 0, _ => none
  | n + 1, cs => (readCore n (skip cs)).map fun p => (p.1, skip p.2)

def readCore : Nat → List Char → Read Value
  | 0, _ => none
  | n + 1, cs =>
    match "true".toList.isPrefixOf? cs, "false".toList.isPrefixOf? cs with
    | some r, _ => some (.boolean true, r)
    | none, some r => some (.boolean false, r)
    | none, none =>
      match cs with
      | '\x7b' :: r => (readPairs n [] r).map fun p => (.table p.1, p.2)
      | '[' :: r => (readElements n r).map fun p => (.array p.1, p.2)
      | '"' :: _ => (readQuoted cs).map fun p => (.string p.1, p.2)
      | '\'' :: c :: '\'' :: r => some (.string (String.singleton c), r)
      | '\'' :: _ => none
      | cs =>
        some (wordValue (cs.takeWhile fun c => !isSeparator c),
          cs.dropWhile fun c => !isSeparator c)

def readElements : Nat → List Char → Read (List Value)
  | 0, _ => none
  | n + 1, cs =>
    match cs with
    | ']' :: r => some ([], r)
    | cs =>
      match readValue n cs with
      | some (v, ',' :: r) => (readElements n r).map fun p => (v :: p.1, p.2)
      | some (v, ']' :: r) => some ([v], r)
      | _ => none

def readPairs : Nat → Toml.Entries → List Char → Read Toml.Entries
  | 0, _, _ => none
  | n + 1, es, cs =>
    match cs with
    | '\x7d' :: r => some (es, r)
    | cs =>
      match readKey (skip cs) with
      | none => none
      | some (key, r) =>
        match skip r with
        | '=' :: r =>
          match readValue n r with
          | some (v, ',' :: r) => readPairs n (Toml.insert key v es) r
          | some (v, '\x7d' :: r) => some (Toml.insert key v es, r)
          | _ => none
        | _ => none

end

def valueOf (text : String) : Value :=
  let cs := text.toList
  match readValue (4 * cs.length + 4) cs with
  | some (v, []) => v
  | _ => .string text

end DeployClient.Settings
