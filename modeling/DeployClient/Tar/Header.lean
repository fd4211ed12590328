import DeployClient.FileSystem.Node
import DeployClient.Tar.Field

/-!
The block of 512 bytes in front of every entry of a tar stream.
-/

namespace DeployClient.Tar

def blockSize : Nat := 512
def nameWidth : Nat := 100

structure Header where
  name : Bytes
  mode : Nat
  owner : Owner
  size : Nat
  mtime : Nat
  flag : UInt8
  link : Bytes
deriving DecidableEq, Inhabited

namespace Header

def magic : Bytes := Bytes.ofText "ustar  " ++ [0]

def byteSum (b : Bytes) : Nat := b.foldl (fun (n : Nat) (d : UInt8) => n + d.toNat) 0

def beforeChecksum (h : Header) : Bytes :=
  padTo nameWidth h.name ++ octalField 8 h.mode ++ numberField 8 h.owner.user.toNat
    ++ numberField 8 h.owner.group.toNat ++ numberField 12 h.size ++ numberField 12 h.mtime

def afterChecksum (h : Header) : Bytes :=
  h.flag :: (padTo nameWidth h.link ++ magic ++ List.replicate 247 0)

/-- The sum of all bytes, with blanks in the place of the sum itself. -/
def checksum (h : Header) : Nat :=
  byteSum (h.beforeChecksum ++ List.replicate 8 32 ++ h.afterChecksum)

def encode (h : Header) : Bytes :=
  h.beforeChecksum ++ octalField 8 h.checksum ++ h.afterChecksum

/-! ### Reading -/

def slice (start width : Nat) (b : Bytes) : Bytes := (b.drop start).take width

/-- The bytes before the first NUL. -/
def textField (b : Bytes) : Bytes := b.takeWhile (· ≠ 0)

def mtimeField (block : Bytes) : Bytes := slice 136 12 block

def decode (block : Bytes) : Header where
  name := textField (slice 0 nameWidth block)
  mode := readOctal (slice 100 8 block)
  owner := ⟨UInt32.ofNat (readNumber (slice 108 8 block)),
    UInt32.ofNat (readNumber (slice 116 8 block))⟩
  size := readNumber (slice 124 12 block)
  mtime := readNumber (mtimeField block)
  flag := (slice 156 1 block).headD 0
  link := textField (slice 157 nameWidth block)

/-- The block carries the sum of its bytes. -/
def hasChecksum (block : Bytes) : Bool :=
  readOctal (slice 148 8 block)
    = byteSum (block.take 148 ++ List.replicate 8 32 ++ block.drop 156)

def hasMagic (block : Bytes) : Bool := slice 257 8 block = magic

end Header

end DeployClient.Tar
