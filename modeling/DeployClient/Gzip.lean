import DeployClient.Bytes

/-!
The gzip container.

The data is kept in stored blocks, between a header of ten bytes and a checksum with the
length. The header tells which compression was asked for.
-/

namespace DeployClient.Gzip

/-! ### Checksum -/

def crcShift (c : UInt32) : UInt32 :=
  if c &&& 1 = 1 then (c >>> 1) ^^^ 0xEDB88320 else c >>> 1

def crcStep (c : UInt32) (b : UInt8) : UInt32 :=
  let c := c ^^^ b.toUInt32
  crcShift (crcShift (crcShift (crcShift (crcShift (crcShift (crcShift (crcShift c)))))))

def crc32 (b : Bytes) : UInt32 := b.foldl crcStep 0xFFFFFFFF ^^^ 0xFFFFFFFF

/-! ### Encoding -/

def littleEndian : Nat → Nat → Bytes
  | 0, _ => []
  | width + 1, n => UInt8.ofNat n :: littleEndian width (n / 256)

structure Level where
  value : Nat
deriving DecidableEq, Inhabited

def best : Level := ⟨9⟩

/-- How much effort went into the compression. -/
def Level.effort (l : Level) : UInt8 := if l.value ≤ 1 then 4 else if 9 ≤ l.value then 2 else 0

def header (l : Level) : Bytes := [0x1F, 0x8B, 8, 0, 0, 0, 0, 0, l.effort, 0xFF]

def maxBlock : Nat := 65535

def storedBlock (final : Bool) (data : Bytes) : Bytes :=
  (if final then 1 else 0) :: (littleEndian 2 data.length
    ++ littleEndian 2 (maxBlock - data.length) ++ data)

/-- Full blocks, as many as asked for, and a last one with what is left. -/
def storedBlocks : Nat → Bytes → Bytes
  | 0, data => storedBlock true data
  | n + 1, data => storedBlock false (data.take maxBlock) ++ storedBlocks n (data.drop maxBlock)

def trailer (data : Bytes) : Bytes :=
  littleEndian 4 (crc32 data).toNat ++ littleEndian 4 data.length

def encode (l : Level) (data : Bytes) : Bytes :=
  header l ++ storedBlocks ((data.length - 1) / maxBlock) data ++ trailer data

/-! ### Decoding -/

def readLittleEndian (b : Bytes) : Nat := b.foldr (fun d n => n * 256 + d.toNat) 0

/-- The data of stored blocks up to the final one, and what follows. -/
def readBlocks : Nat → Bytes → Option (Bytes × Bytes)
  | 0, _ => none
  | n + 1, flag :: rest =>
    let size := readLittleEndian (rest.take 2)
    let check := readLittleEndian ((rest.drop 2).take 2)
    let body := rest.drop 4
    if size + check ≠ maxBlock ∨ body.length < size then none
    else if flag = 1 then some (body.take size, body.drop size)
    else if flag = 0 then
      match readBlocks n (body.drop size) with
      | none => none
      | some (data, left) => some (body.take size ++ data, left)
    else none
  | _ + 1, [] => none

def isGzip (b : Bytes) : Bool := [0x1F, 0x8B].isPrefixOf b

def decode? (b : Bytes) : Option Bytes :=
  if b.take 4 ≠ [0x1F, 0x8B, 8, 0] then none
  else
    match readBlocks (b.length + 1) (b.drop 10) with
    | none => none
    | some (data, left) => if left = trailer data then some data else none

end DeployClient.Gzip
