import DeployClient.Text.Utf8
import DeployClient.Url.Encoding
import DeployClient.Url.Punycode

/-!
Domain names in the form in which they are looked up: lower case, ASCII, with the labels of
other scripts in Punycode.

The table of foldings covers the scripts with two cases, the wide forms of ASCII, the other
full stops and the characters that are not to be seen; every other character is kept.
-/

namespace DeployClient.Url.DomainName

/-- What becomes of a character of a name. -/
inductive Folding where
  | keep
  | become (cs : List Char)
  | refuse
deriving DecidableEq

def shifted (c : Char) (up : Nat) : Folding := .become [Char.ofNat (c.toNat + up)]

/-- In these ranges each capital letter is followed by its small letter. -/
def pairedRanges : List (Nat × Nat) :=
  [(0x100, 0x12F), (0x132, 0x137), (0x139, 0x13E), (0x141, 0x148), (0x14A, 0x177),
    (0x179, 0x17E), (0x1CD, 0x1DC), (0x1DE, 0x1EF), (0x1F8, 0x21F), (0x222, 0x233),
    (0x246, 0x24F), (0x370, 0x373), (0x3D8, 0x3EF), (0x460, 0x481), (0x48A, 0x4BF),
    (0x4C1, 0x4CE), (0x4D0, 0x52F), (0x1E00, 0x1E95), (0x1EA0, 0x1EFF)]

/-- Ranges of capital letters, and how far above each its small letter is. -/
def shiftedRanges : List (Nat × Nat × Nat) :=
  [(0x41, 0x5A, 0x20), (0xC0, 0xD6, 0x20), (0xD8, 0xDE, 0x20), (0x386, 0x386, 0x26),
    (0x388, 0x38A, 0x25), (0x38C, 0x38C, 0x40), (0x38E, 0x38F, 0x3F), (0x391, 0x3A1, 0x20),
    (0x3A3, 0x3AB, 0x20), (0x400, 0x40F, 0x50), (0x410, 0x42F, 0x20), (0x4C0, 0x4C0, 0xF),
    (0x531, 0x556, 0x30), (0x10400, 0x10427, 0x28)]

/-- Characters that are left out of a name. -/
def unseenRanges : List (Nat × Nat) :=
  [(0xAD, 0xAD), (0x34F, 0x34F), (0x180B, 0x180F), (0x200B, 0x200B), (0x2060, 0x2064),
    (0xFE00, 0xFE0F), (0xFEFF, 0xFEFF), (0xE0100, 0xE01EF)]

/-- Characters that no name holds, also those that fold to one with a forbidden ASCII
character in it. -/
def refusedRanges : List (Nat × Nat) :=
  [(0x80, 0xA0), (0xA8, 0xA8), (0xAF, 0xAF), (0xB4, 0xB4), (0xB8, 0xB8), (0x2D8, 0x2DD),
    (0x37A, 0x37A), (0x384, 0x385), (0x1680, 0x1680), (0x1FBD, 0x1FBD), (0x1FBF, 0x1FC1),
    (0x1FCD, 0x1FCF), (0x1FDD, 0x1FDF), (0x1FED, 0x1FEE), (0x1FFD, 0x1FFE), (0x2000, 0x200A),
    (0x200C, 0x200F), (0x2017, 0x2017), (0x2028, 0x202F), (0x203E, 0x203E), (0x2047, 0x2049),
    (0x205F, 0x205F), (0x2065, 0x206F), (0x2100, 0x2101), (0x2105, 0x2106), (0x2488, 0x249B),
    (0x2A74, 0x2A74), (0x3000, 0x3000), (0x309B, 0x309C), (0xE000, 0xF8FF), (0xFC5E, 0xFC63),
    (0xFDD0, 0xFDEF), (0xFDFA, 0xFDFB), (0xFE13, 0xFE13), (0xFE16, 0xFE16), (0xFE47, 0xFE4C),
    (0xFE55, 0xFE56), (0xFE5F, 0xFE5F), (0xFE64, 0xFE65), (0xFE68, 0xFE68), (0xFE6A, 0xFE6B),
    (0xFE70, 0xFE70), (0xFE72, 0xFE72), (0xFE74, 0xFE74), (0xFE76, 0xFE76), (0xFE78, 0xFE78),
    (0xFE7A, 0xFE7A), (0xFE7C, 0xFE7C), (0xFE7E, 0xFE7E), (0xFFE3, 0xFFE3), (0xFFF0, 0xFFFF),
    (0xE0000, 0xE00FF), (0xE01F0, 0x10FFFF)]

def specialFoldings : List (Nat × String) :=
  [(0xAA, "a"), (0xB2, "2"), (0xB3, "3"), (0xB5, "μ"), (0xB9, "1"), (0xBA, "o"),
    (0x130, "i̇"), (0x132, "ij"), (0x133, "ij"), (0x13F, "l·"), (0x140, "l·"), (0x149, "ʼn"),
    (0x178, "ÿ"), (0x17F, "s"), (0x1E9E, "ß"), (0x2011, "‐"), (0x2024, "."), (0x2025, ".."),
    (0x2026, "..."), (0x2122, "tm"), (0x212A, "k"), (0x212B, "å"), (0x3002, "."), (0xFE19, "..."),
    (0xFE30, ".."), (0xFE52, "."), (0xFF61, ".")]

def inRanges (ranges : List (Nat × Nat)) (n : Nat) : Bool :=
  ranges.any fun r => r.1 ≤ n && n ≤ r.2

/-- Small letters of a paired range have the parity of its end. -/
def pairedFolding? (c : Char) : Option Folding :=
  (pairedRanges.find? fun r => r.1 ≤ c.toNat && c.toNat ≤ r.2).map fun r =>
    if c.toNat % 2 = r.2 % 2 then .keep else shifted c 1

/-- ASCII characters that no name contains. -/
def isForbidden (c : Char) : Bool :=
  isControl c || " %#/:<>?@[\\]^|".toList.contains c

def foldNarrow (c : Char) : Folding :=
  let n := c.toNat
  if isForbidden c || inRanges refusedRanges n then .refuse
  else if inRanges unseenRanges n then .become []
  else
    match specialFoldings.find? fun e => e.1 = n with
    | some e => .become e.2.toList
    | none =>
      match shiftedRanges.find? fun r => r.1 ≤ n && n ≤ r.2.1 with
      | some r => shifted c r.2.2
      | none => (pairedFolding? c).getD .keep

/-- A wide form of an ASCII character folds like that character. -/
def fold (c : Char) : Folding :=
  if 0xFF01 ≤ c.toNat ∧ c.toNat ≤ 0xFF5E then
    let narrow := Char.ofNat (c.toNat - 0xFEE0)
    match foldNarrow narrow with
    | .keep => .become [narrow]
    | f => f
  else foldNarrow c

def foldAll? (cs : List Char) : Option (List Char) :=
  (cs.mapM fun c =>
    match fold c with
    | .keep => some [c]
    | .become cs => some cs
    | .refuse => none).map List.flatten

def isCombining (c : Char) : Bool :=
  (0x300 ≤ c.toNat && c.toNat ≤ 0x36F) || (0x483 ≤ c.toNat && c.toNat ≤ 0x489)
    || (0x591 ≤ c.toNat && c.toNat ≤ 0x5BD) || (0x20D0 ≤ c.toNat && c.toNat ≤ 0x20F0)

/-- A label beyond ASCII is written in its own letters, and it begins with one. -/
def isProperLabel (label : List Char) : Bool :=
  !(label.all isAscii) && label.all (fun c => fold c = .keep)
    && !((label.head?.map isCombining).getD false)

def encodedStart : List Char := "xn--".toList

def encodeLabel? (label : List Char) : Option (List Char) :=
  match encodedStart.isPrefixOf? label with
  | some code =>
    match if code.all isAscii then Punycode.decode? code else none with
    | some decoded => if isProperLabel decoded then some label else none
    | none => none
  | none =>
    if label.all isAscii then some label
    else if isProperLabel label then some (encodedStart ++ Punycode.encode label)
    else none

/-- The name that some bytes spell. -/
def ofBytes? (b : Bytes) : Option (List Char) :=
  match Bytes.toText? b with
  | none => none
  | some s =>
    match foldAll? s.toList with
    | none => none
    | some cs => ((cs.splitOn '.').mapM encodeLabel?).map (List.intercalate ['.'])

end DeployClient.Url.DomainName
