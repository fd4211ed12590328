import DeployClient.Bytes

/-!
Percent-encoding: a byte written as a percent sign and two hexadecimal digits.

Which characters are written so depends on the part of an address that they stand in.
Characters beyond ASCII always are.
-/

namespace DeployClient.Url

def hexValue? (c : Char) : Option Nat :=
  if '0' ≤ c ∧ c ≤ '9' then some (c.toNat - 0x30)
  else if 'a' ≤ c ∧ c ≤ 'f' then some (c.toNat - 0x57)
  else if 'A' ≤ c ∧ c ≤ 'F' then some (c.toNat - 0x37)
  else none

def upperDigit (n : Nat) : Char := Char.ofNat (if n < 10 then 0x30 + n else 0x37 + n)

def encodeByte (b : UInt8) : List Char :=
  ['%', upperDigit (b.toNat / 16), upperDigit (b.toNat % 16)]

def isAscii (c : Char) : Bool := c.toNat < 0x80

def encodeChar (escaped : Char → Bool) (c : Char) : List Char :=
  if isAscii c && !escaped c then [c]
  else (Bytes.ofText (String.singleton c)).flatMap encodeByte

/-- Encodes what lies beyond ASCII and the characters of a class. -/
def percentEncode (escaped : Char → Bool) (cs : List Char) : List Char :=
  cs.flatMap (encodeChar escaped)

@[simp] theorem percentEncode_nil (escaped : Char → Bool) : percentEncode escaped [] = [] := rfl
theorem percentEncode_append (escaped : Char → Bool) (l r : List Char) :
    percentEncode escaped (l ++ r) = percentEncode escaped l ++ percentEncode escaped r := by
  simp [percentEncode]

/-- A percent sign without two digits stands for itself. -/
def percentDecode : List Char → Bytes
  | [] => []
  | c :: rest =>
    let kept := Bytes.ofText (String.singleton c) ++ percentDecode rest
    match c, rest with
    | '%', a :: b :: rest =>
      match hexValue? a, hexValue? b with
      | some x, some y => UInt8.ofNat (16 * x + y) :: percentDecode rest
      | _, _ => kept
    | _, _ => kept

/-! ### Classes of characters -/

def isControl (c : Char) : Bool := c.toNat < 0x20 || c.toNat = 0x7F

def inFragment (c : Char) : Bool := isControl c || [' ', '"', '<', '>', '\x60'].contains c

def inQuery (c : Char) : Bool := isControl c || [' ', '"', '#', '<', '>', '\''].contains c

def inPath (c : Char) : Bool := inFragment c || ['#', '?', '\x7b', '\x7d'].contains c

def inUserinfo (c : Char) : Bool :=
  inPath c || ['/', ':', ';', '=', '@', '[', '\\', ']', '^', '|'].contains c

end DeployClient.Url
