import DeployClient.Bytes

/-!
The numbers in a tar header. A number is written in octal digits, or in base 256 with the
highest bit set where the digits would not suffice.
-/

namespace DeployClient.Tar

def padTo (width : Nat) (b : Bytes) : Bytes := b ++ List.replicate (width - b.length) 0

/-- The last `width` octal digits. -/
def octalDigits : Nat → Nat → Bytes
  | 0, _ => []
  | width + 1, n => octalDigits width (n / 8) ++ [UInt8.ofNat (48 + n % 8)]

/-- The last `width` digits in base 256. -/
def bigEndian : Nat → Nat → Bytes
  | 0, _ => []
  | width + 1, n => bigEndian width (n / 256) ++ [UInt8.ofNat n]

def octalField (width n : Nat) : Bytes := octalDigits (width - 1) n ++ [0]

def numberField (width n : Nat) : Bytes :=
  if n < Nat.pow 8 (width - 1) then octalField width n else 0x80 :: bigEndian (width - 1) n

/-! ### Reading -/

def isOctal (b : UInt8) : Bool := 48 ≤ b && b ≤ 55

def readOctal (b : Bytes) : Nat :=
  (b.takeWhile isOctal).foldl (fun n d => n * 8 + (d.toNat - 48)) 0

def readBigEndian (b : Bytes) : Nat := b.foldl (fun n d => n * 256 + d.toNat) 0

def readNumber (field : Bytes) : Nat :=
  match field with
  | [] => 0
  | b :: rest => if 0x80 ≤ b then readBigEndian ((b - 0x80) :: rest) else readOctal field

end DeployClient.Tar
