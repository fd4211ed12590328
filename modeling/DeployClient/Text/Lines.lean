import DeployClient.Text.Utf8

/-!
Lines of text, and a writer that hands out complete lines only.

`textLines` reads a whole text: a line ends with a line feed, a carriage return just before
it belongs to the ending, and an unended rest counts as a line. `LineBuffer` takes bytes in
any pieces: what it takes is put behind what is pending, and then all lines that have been
completed are printed, the first one first.
-/

namespace DeployClient.Text

/-- Cuts at each line feed; the last part is what follows the last of them. -/
def cutLines (b : Bytes) : List Bytes := b.splitOn Bytes.newline

def dropReturn (line : List Char) : List Char :=
  if line.getLast? = some '\r' then line.dropLast else line

def textLines (s : String) : List String :=
  let parts := s.toList.splitOn '\n'
  let ended := parts.dropLast.map fun l => String.ofList (dropReturn l)
  match parts.getLast? with
  | none | some [] => ended
  | some rest => ended ++ [String.ofList rest]

structure LineBuffer where
  printed : List String
  pending : Bytes
deriving DecidableEq, Inhabited

namespace LineBuffer

def empty : LineBuffer := ⟨[], []⟩

/-- Prints the complete lines of what is pending, each without its line feed. -/
def drain (l : LineBuffer) : LineBuffer :=
  if h : Bytes.newline ∈ l.pending then
    let position := l.pending.idxOf Bytes.newline
    drain ⟨l.printed ++ [Utf8.decodeLossy (l.pending.take position)],
      l.pending.drop (position + 1)⟩
  else l
termination_by l.pending.length
decreasing_by
  have hpending := List.length_pos_of_mem h
  rw [List.length_drop]
  omega

/-- How many of the bytes have been taken, and the buffer afterwards. -/
def accept (l : LineBuffer) (data : Bytes) : Nat × LineBuffer :=
  (data.length, drain { l with pending := l.pending ++ data })

def write (l : LineBuffer) (data : Bytes) : LineBuffer := (l.accept data).2

end LineBuffer

end DeployClient.Text
