import DeployClient.Bytes

/-!
Reading bytes as text when they may be broken.

The scan reads one byte at a time. Between characters nothing is pending; inside one, the
pending part knows how many bytes are still due and which range the next one must lie in,
so that overlong forms and surrogates are refused at their second byte. A broken part is
replaced by one U+FFFD, and the byte that broke it is read again as a first byte.
-/

namespace DeployClient.Text.Utf8

structure Pending where
  due : Nat
  low : Nat
  high : Nat
  value : Nat

structure Scan where
  done : List Char
  pending : Option Pending

def replacement : Char := '\uFFFD'

def Scan.start : Scan := ⟨[], none⟩

def Scan.emit (s : Scan) (c : Char) : Scan := ⟨c :: s.done, none⟩

def Scan.await (s : Scan) (due low high value : Nat) : Scan :=
  ⟨s.done, some ⟨due, low, high, value⟩⟩

/-- Reads a byte where a character begins. -/
def Scan.first (s : Scan) (b : Nat) : Scan :=
  if b < 0x80 then s.emit (Char.ofNat b)
  else if 0xC2 ≤ b ∧ b ≤ 0xDF then s.await 1 0x80 0xBF (b - 0xC0)
  else if b = 0xE0 then s.await 2 0xA0 0xBF 0
  else if b = 0xED then s.await 2 0x80 0x9F 0xD
  else if 0xE1 ≤ b ∧ b ≤ 0xEF then s.await 2 0x80 0xBF (b - 0xE0)
  else if b = 0xF0 then s.await 3 0x90 0xBF 0
  else if 0xF1 ≤ b ∧ b ≤ 0xF3 then s.await 3 0x80 0xBF (b - 0xF0)
  else if b = 0xF4 then s.await 3 0x80 0x8F 4
  else s.emit replacement

def Scan.step (s : Scan) (b : UInt8) : Scan :=
  match s.pending with
  | none => s.first b.toNat
  | some p =>
    if p.low ≤ b.toNat ∧ b.toNat ≤ p.high then
      let value := p.value * 64 + (b.toNat - 0x80)
      if p.due = 1 then s.emit (Char.ofNat value) else s.await (p.due - 1) 0x80 0xBF value
    else (s.emit replacement).first b.toNat

def Scan.finish (s : Scan) : List Char :=
  match s.pending with
  | none => s.done.reverse
  | some _ => (replacement :: s.done).reverse

/-- The text of the bytes, each broken part shown as U+FFFD. -/
def decodeLossy (b : Bytes) : String :=
  match Bytes.toText? b with
  | some s => s
  | none => String.ofList (b.foldl Scan.step Scan.start).finish

@[simp] theorem decodeLossy_ofText (s : String) : decodeLossy (Bytes.ofText s) = s := by
  simp [decodeLossy]

end DeployClient.Text.Utf8
