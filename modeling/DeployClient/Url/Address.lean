import DeployClient.Url.Encoding

/-!
Internet addresses written as numbers.

An address of version 4 has up to four parts, each decimal, octal or hexadecimal; the last
part fills the bytes that are left. An address of version 6 has eight pieces of sixteen bits,
of which one run of zeros may be left out and the last two may be written as an address of
version 4.
-/

namespace DeployClient.Url

def joinWith (separator : Char) (parts : List (List Char)) : List Char :=
  List.intercalate [separator] parts

/-! ### Version 4 -/

namespace Ipv4

def digitsValue? (base : Nat) (ds : List Char) : Option Nat :=
  ds.foldl (fun n d =>
    match n, hexValue? d with
    | some n, some x => if x < base then some (base * n + x) else none
    | _, _ => none) (some 0)

/-- A prefix of `0x` announces hexadecimal and one of `0` octal digits; there may be none. -/
def number? : List Char → Option Nat
  | [] => none
  | '0' :: 'x' :: ds => digitsValue? 16 ds
  | '0' :: 'X' :: ds => digitsValue? 16 ds
  | ['0'] => some 0
  | '0' :: ds => digitsValue? 8 ds
  | ds => digitsValue? 10 ds

def dotted (s : List Char) : List (List Char) := s.splitOn '.'

/-- The parts of a dotted name; a dot at the end is not followed by a part. -/
def parts (s : List Char) : List (List Char) :=
  match (dotted s).getLast? with
  | some [] => (dotted s).dropLast
  | _ => dotted s

def isDecimal (s : List Char) : Bool := !s.isEmpty && s.all fun c => '0' ≤ c && c ≤ '9'

/-- A name whose last part is a number has to be an address. -/
def isMeant (s : List Char) : Bool :=
  match (parts s).getLast? with
  | some last => isDecimal last || (number? last).isSome
  | none => false

def bytePower (n : Nat) : Nat := Nat.pow 256 n

/-- The address as one number. -/
def read? (s : List Char) : Option Nat :=
  match (parts s).mapM number? with
  | none => none
  | some numbers =>
    let leading := numbers.dropLast
    let last := numbers.getLastD 0
    let range := bytePower (4 - leading.length)
    if 4 < numbers.length ∨ leading.any (255 < ·) ∨ range ≤ last then none
    else some (leading.foldl (fun n x => 256 * n + x) 0 * range + last)

def text (address : Nat) : List Char :=
  joinWith '.' ([3, 2, 1, 0].map fun i => Nat.toDigits 10 (address / bytePower i % 256))

end Ipv4

/-! ### Version 6 -/

namespace Ipv6

/-- Reads up to four hexadecimal digits. -/
def piece? (s : List Char) : Option Nat :=
  if s.isEmpty ∨ 4 < s.length then none else Ipv4.digitsValue? 16 s

/-- One of the four decimal parts at the end of an address; it has no leading zeros. -/
def byte? (s : List Char) : Option Nat :=
  if !Ipv4.isDecimal s ∨ (s.head? = some '0' ∧ s ≠ ['0']) then none
  else (Ipv4.digitsValue? 10 s).filter (· ≤ 255)

def tail? (s : List Char) : Option (List Nat) :=
  match (Ipv4.dotted s).mapM byte? with
  | some [a, b, c, d] => some [256 * a + b, 256 * c + d]
  | _ => none

/-- The pieces between colons; only the last may be dotted. -/
def pieces? : List (List Char) → Option (List Nat)
  | [] => some []
  | [last] => if last.contains '.' then tail? last else (piece? last).map ([·])
  | s :: rest =>
    match piece? s, pieces? rest with
    | some n, some ns => some (n :: ns)
    | _, _ => none

def side? (s : List Char) : Option (List Nat) :=
  if s.isEmpty then some [] else pieces? (s.splitOn ':')

/-- Cuts at the first double colon. -/
def cut? : List Char → Option (List Char × List Char)
  | ':' :: ':' :: rest => some ([], rest)
  | c :: rest => (cut? rest).map fun (l, r) => (c :: l, r)
  | [] => none

/-- The eight pieces of an address; a double colon stands for at least one zero. -/
def read? (s : List Char) : Option (List Nat) :=
  match cut? s with
  | none => (pieces? (s.splitOn ':')).filter (·.length = 8)
  | some (l, r) =>
    if l.contains '.' then none
    else
      match side? l, side? r with
      | some before, some after =>
        let left := 8 - (before.length + after.length)
        if left = 0 then none else some (before ++ List.replicate left 0 ++ after)
      | _, _ => none

/-- The length of the run of zeros at each place. -/
def zeroRuns : List Nat → List Nat
  | [] => []
  | n :: ns => (if n = 0 then (zeroRuns ns).headD 0 + 1 else 0) :: zeroRuns ns

/-- The longest run of zeros is left out, the first of several, unless it is a single zero. -/
def text (pieces : List Nat) : List Char :=
  let longest := (zeroRuns pieces).foldl max 0
  let written (ns : List Nat) := joinWith ':' (ns.map (Nat.toDigits 16))
  if longest < 2 then written pieces
  else
    let start := (zeroRuns pieces).idxOf longest
    written (pieces.take start) ++ "::".toList ++ written (pieces.drop (start + longest))

end Ipv6

end DeployClient.Url
