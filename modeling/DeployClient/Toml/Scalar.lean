import DeployClient.Toml.Value

/-!
Reading numbers, dates and times.

A number or a date is a run of characters that no other value may hold. The run is read as a
whole, and it is refused unless all of it makes sense.
-/

namespace DeployClient.Toml

def isDigit (c : Char) : Bool := '0' ≤ c && c ≤ '9'

def isTokenChar (c : Char) : Bool :=
  isDigit c || ('a' ≤ c && c ≤ 'z') || ('A' ≤ c && c ≤ 'Z')
    || ['_', '+', '-', '.', ':'].contains c

def digitValue (c : Char) : Nat :=
  if isDigit c then c.toNat - 48
  else if 'a' ≤ c ∧ c ≤ 'z' then c.toNat - 87
  else if 'A' ≤ c ∧ c ≤ 'Z' then c.toNat - 55
  else 36

def isDigitOf (base : Nat) (c : Char) : Bool := digitValue c < base

def numberOf (base : Nat) (ds : List Char) : Nat :=
  ds.foldl (fun n d => n * base + digitValue d) 0

/-- Digits with single underscores between them; the flag tells that a digit was just read. -/
def joinedDigits (base : Nat) : Bool → List Char → Option (List Char)
  | afterDigit, [] => if afterDigit then some [] else none
  | afterDigit, c :: cs =>
    if c = '_' then if afterDigit then joinedDigits base false cs else none
    else if isDigitOf base c then (joinedDigits base true cs).map (c :: ·)
    else none

/-! ### Integers -/

def leastInteger : Int := -0x8000000000000000
def greatestInteger : Int := 0x7FFFFFFFFFFFFFFF

def inRange? (i : Int) : Option Int :=
  if leastInteger ≤ i ∧ i ≤ greatestInteger then some i else none

def splitSign (cs : List Char) : Bool × List Char :=
  match cs with
  | '-' :: r => (true, r)
  | '+' :: r => (false, r)
  | r => (false, r)

/-- A whole number without needless zeros in front. -/
def plainDigits? (cs : List Char) : Option (List Char) :=
  match cs with
  | '0' :: _ :: _ => none
  | cs => joinedDigits 10 false cs

def signed (negative : Bool) (n : Nat) : Int := if negative then -(n : Int) else n

def integer? (cs : List Char) : Option Int :=
  match cs with
  | '0' :: 'x' :: r => (joinedDigits 16 false r).bind fun ds => inRange? (numberOf 16 ds)
  | '0' :: 'o' :: r => (joinedDigits 8 false r).bind fun ds => inRange? (numberOf 8 ds)
  | '0' :: 'b' :: r => (joinedDigits 2 false r).bind fun ds => inRange? (numberOf 2 ds)
  | cs =>
    let (negative, body) := splitSign cs
    (plainDigits? body).bind fun ds => inRange? (signed negative (numberOf 10 ds))

/-! ### Floats -/

/-- Cuts at the first character that `p` holds of, which is left out. -/
def splitAtFirst (p : Char → Bool) (cs : List Char) : List Char × Option (List Char) :=
  match cs.dropWhile fun c => !p c with
  | [] => (cs, none)
  | _ :: r => (cs.takeWhile fun c => !p c, some r)

def exponent? (e : Option (List Char)) : Option Int :=
  match e with
  | none => some 0
  | some cs =>
    let (negative, body) := splitSign cs
    (joinedDigits 10 false body).map fun ds => signed negative (numberOf 10 ds)

def fraction? (f : Option (List Char)) : Option (List Char) :=
  match f with
  | none => some []
  | some cs => joinedDigits 10 false cs

/-- Too large a number is refused, and one too far below zero is negative infinity. -/
def finite? (f : Decimal.Binary64) : Option Decimal.Binary64 :=
  if f = .infinite false then none else some f

def decimal? (negative : Bool) (body : List Char) : Option Decimal.Binary64 :=
  let (mantissa, e) := splitAtFirst (fun c => c = 'e' || c = 'E') body
  let (whole, f) := splitAtFirst (· = '.') mantissa
  if e.isNone ∧ f.isNone then none
  else
    match plainDigits? whole, fraction? f, exponent? e with
    | some w, some f, some e =>
      finite? (Decimal.Binary64.ofDecimal negative (numberOf 10 (w ++ f)) (e - f.length))
    | _, _, _ => none

def float? (cs : List Char) : Option Decimal.Binary64 :=
  let (negative, body) := splitSign cs
  if body = ['i', 'n', 'f'] then some (.infinite negative)
  else if body = ['n', 'a', 'n'] then some (.nan negative)
  else decimal? negative body

/-! ### Dates and times -/

/-- A number of exactly so many digits, with what follows. -/
def fixedDigits? (count : Nat) (cs : List Char) : Option (Nat × List Char) :=
  let ds := cs.take count
  if ds.length = count ∧ ds.all isDigit then some (numberOf 10 ds, cs.drop count) else none

def expect? (c : Char) : List Char → Option (List Char)
  | d :: r => if d = c then some r else none
  | [] => none

def isLeapYear (y : Nat) : Bool := y % 4 = 0 && (y % 100 ≠ 0 || y % 400 = 0)

def daysIn (year month : Nat) : Nat :=
  if month = 2 then if isLeapYear year then 29 else 28
  else if [4, 6, 9, 11].contains month then 30
  else 31

def date? (cs : List Char) : Option (Date × List Char) := do
  let (year, cs) ← fixedDigits? 4 cs
  let cs ← expect? '-' cs
  let (month, cs) ← fixedDigits? 2 cs
  let cs ← expect? '-' cs
  let (day, cs) ← fixedDigits? 2 cs
  if 1 ≤ month ∧ month ≤ 12 ∧ 1 ≤ day ∧ day ≤ daysIn year month then
    some (⟨year, month, day⟩, cs)
  else none

/-- The first nine digits count, as if zeros followed. -/
def nanoseconds (ds : List Char) : Nat :=
  numberOf 10 ((ds ++ List.replicate 9 '0').take 9)

def fractionalSecond? (cs : List Char) : Option (Nat × List Char) :=
  match cs with
  | '.' :: r =>
    let ds := r.takeWhile isDigit
    if ds.isEmpty then none else some (nanoseconds ds, r.dropWhile isDigit)
  | cs => some (0, cs)

def time? (cs : List Char) : Option (Time × List Char) := do
  let (hour, cs) ← fixedDigits? 2 cs
  let cs ← expect? ':' cs
  let (minute, cs) ← fixedDigits? 2 cs
  let cs ← expect? ':' cs
  let (second, cs) ← fixedDigits? 2 cs
  let (nano, cs) ← fractionalSecond? cs
  if hour ≤ 23 ∧ minute ≤ 59 ∧ second ≤ 60 then some (⟨hour, minute, second, nano⟩, cs)
  else none

def offset? (cs : List Char) : Option (Option Offset × List Char) :=
  match cs with
  | 'Z' :: r => some (some .zulu, r)
  | 'z' :: r => some (some .zulu, r)
  | s :: r =>
    if s = '+' ∨ s = '-' then do
      let (hour, r) ← fixedDigits? 2 r
      let r ← expect? ':' r
      let (minute, r) ← fixedDigits? 2 r
      if hour ≤ 23 ∧ minute ≤ 59 then
        some (some (.minutes (signed (s = '-') (hour * 60 + minute))), r)
      else none
    else some (none, s :: r)
  | [] => some (none, [])

def whole? {α : Type} (r : Option (α × List Char)) : Option α :=
  match r with
  | some (a, []) => some a
  | _ => none

def timeAndOffset? (cs : List Char) : Option (Time × Option Offset) :=
  whole? do
    let (t, cs) ← time? cs
    let (o, cs) ← offset? cs
    some ((t, o), cs)

/-- A date, a time, or both with a mark or a blank between them. -/
def moment? (cs : List Char) : Option Moment :=
  match date? cs with
  | some (d, []) => some ⟨some d, none, none⟩
  | some (d, c :: r) =>
    if c = 'T' ∨ c = 't' ∨ c = ' ' then
      (timeAndOffset? r).map fun rest => ⟨some d, some rest.1, rest.2⟩
    else none
  | none => (whole? (time? cs)).map fun t => ⟨none, some t, none⟩

def tokenValue? (cs : List Char) : Option Value :=
  match moment? cs with
  | some m => some (.moment m)
  | none =>
    match integer? cs with
    | some i => some (.integer i)
    | none => (float? cs).map .float

/-- A date and a time may also stand apart, with one blank between them. -/
def readToken (cs : List Char) : Option (Value × List Char) :=
  let token := cs.takeWhile isTokenChar
  let rest := cs.dropWhile isTokenChar
  match tokenValue? token, rest with
  | some (.moment ⟨some d, none, none⟩), ' ' :: r =>
    match timeAndOffset? (r.takeWhile isTokenChar) with
    | some (t, o) => some (.moment ⟨some d, some t, o⟩, r.dropWhile isTokenChar)
    | none => some (.moment ⟨some d, none, none⟩, rest)
  | some v, rest => some (v, rest)
  | none, _ => none

end DeployClient.Toml
