import DeployClient.Tar.Member

/-!
Reading a tar stream back.

The stream is first cut into entries, each a header block and its data, until the two blocks
of zeros. A header that does not carry the sum of its bytes is refused. Entries that hold a
long name or a long target are then joined to the entry after them.
-/

namespace DeployClient.Tar

structure RawEntry where
  block : Bytes
  data : Bytes
deriving DecidableEq, Inhabited

namespace RawEntry

def header (e : RawEntry) : Header := Header.decode e.block

end RawEntry

def isZero (b : Bytes) : Bool := b.all (· = 0)

/-- Cuts off one entry after the other; there are no more of them than blocks. -/
def cutEntries : Nat → Bytes → Option (List RawEntry × Bytes)
  | 0, _ => none
  | n + 1, stream =>
    let block := stream.take blockSize
    let rest := stream.drop blockSize
    if block.length < blockSize then none
    else if isZero block then
      let second := rest.take blockSize
      if second.length = blockSize ∧ isZero second then some ([], rest.drop blockSize) else none
    else if !Header.hasChecksum block then none
    else
      let size := (Header.decode block).size
      let data := rest.take size
      if data.length < size then none
      else
        let blocks := (size + blockSize - 1) / blockSize
        match cutEntries n (rest.drop (blocks * blockSize)) with
        | none => none
        | some (es, left) => some (⟨block, data⟩ :: es, left)

/-- The entries of a stream that ends right after its end blocks. -/
def rawEntries? (stream : Bytes) : Option (List RawEntry) :=
  match cutEntries (stream.length / blockSize + 1) stream with
  | some (es, []) => some es
  | _ => none

def flagKind? (flag : UInt8) : Option Archive.Kind :=
  if flag = kindFlag .file then some .file
  else if flag = kindFlag .directory then some .directory
  else if flag = kindFlag .symlink then some .symlink
  else none

/-- Joins long names and targets to the entries that they belong to. -/
def joinEntries (name link : Option Bytes) : List RawEntry → Option (List Member)
  | [] => if name.isNone ∧ link.isNone then some [] else none
  | e :: es =>
    let h := e.header
    if h.flag = longNameFlag then joinEntries (some e.data.dropLast) link es
    else if h.flag = longLinkFlag then joinEntries name (some e.data.dropLast) es
    else
      match flagKind? h.flag, joinEntries none none es with
      | some kind, some ms =>
        some (⟨name.getD h.name, kind, h.mode, h.owner, h.mtime, h.size, link.getD h.link,
          e.data⟩ :: ms)
      | _, _ => none

def decode? (stream : Bytes) : Option (List Member) :=
  (rawEntries? stream).bind (joinEntries none none)

end DeployClient.Tar
