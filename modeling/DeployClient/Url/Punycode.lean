/-!
Writing names of any script with ASCII letters and digits.

The ASCII characters of a name come first. The others follow as differences, in the order of
their code points, each written in digits of base 36 whose weights depend on a bias that
adapts to the differences seen so far.
-/

namespace DeployClient.Url.Punycode

def base : Nat := 36

def threshold (k bias : Nat) : Nat :=
  if k ≤ bias then 1 else if bias + 26 ≤ k then 26 else k - bias

theorem threshold_pos (k bias : Nat) : 0 < threshold k bias := by
  unfold threshold
  split
  · decide
  · split <;> omega

/-- Divides until the difference is small; the fuel is the difference itself. -/
def shrink : Nat → Nat → Nat → Nat
  | 0, delta, k => k + base * delta / (delta + 38)
  | fuel + 1, delta, k =>
    if 455 < delta then shrink fuel (delta / 35) (k + base)
    else k + base * delta / (delta + 38)

def adapt (delta count : Nat) (first : Bool) : Nat :=
  let delta := if first then delta / 700 else delta / 2
  let delta := delta + delta / count
  shrink delta delta 0

def digitChar (d : Nat) : Char := Char.ofNat (if d < 26 then 0x61 + d else 0x16 + d)

def digitValue? (c : Char) : Option Nat :=
  if 'a' ≤ c ∧ c ≤ 'z' then some (c.toNat - 0x61)
  else if 'A' ≤ c ∧ c ≤ 'Z' then some (c.toNat - 0x41)
  else if '0' ≤ c ∧ c ≤ '9' then some (c.toNat - 0x16)
  else none

/-! ### Writing -/

def digits (bias k q : Nat) : List Char :=
  let t := threshold k bias
  if q < t then [digitChar q]
  else digitChar (t + (q - t) % (base - t)) :: digits bias (k + base) ((q - t) / (base - t))
termination_by q
decreasing_by
  have := threshold_pos k bias
  exact Nat.lt_of_le_of_lt (Nat.div_le_self _ _) (by omega)

structure Encoder where
  written : List Char
  delta : Nat
  bias : Nat
  handled : Nat

def Encoder.step (basics point : Nat) (e : Encoder) (c : Char) : Encoder :=
  if c.toNat < point then { e with delta := e.delta + 1 }
  else if c.toNat = point then
    { written := e.written ++ digits e.bias base e.delta, delta := 0,
      bias := adapt e.delta (e.handled + 1) (e.handled = basics), handled := e.handled + 1 }
  else e

/-- Writes the characters of the code points in turn, which are given in their order. -/
def Encoder.run (cs : List Char) (basics : Nat) : List Nat → Nat → Encoder → Encoder
  | [], _, e => e
  | point :: points, next, e =>
    let e := { e with delta := e.delta + (point - next) * (e.handled + 1) }
    let e := cs.foldl (Encoder.step basics point) e
    run cs basics points (point + 1) { e with delta := e.delta + 1 }

def encode (cs : List Char) : List Char :=
  let basic := cs.filter (·.toNat < 0x80)
  let points := ((cs.map Char.toNat).filter (0x80 ≤ ·)).mergeSort.eraseReps
  let start := if basic.isEmpty then [] else basic ++ ['-']
  (Encoder.run cs basic.length points 0x80 ⟨start, 0, 72, basic.length⟩).written

/-! ### Reading -/

/-- One difference, from the digits at the front: the place it leads to and what follows. -/
def difference? (bias : Nat) : List Char → Nat → Nat → Nat → Option (Nat × List Char)
  | [], _, _, _ => none
  | c :: rest, k, weight, place =>
    match digitValue? c with
    | none => none
    | some d =>
      let t := threshold k bias
      let place := place + d * weight
      if d < t then some (place, rest)
      else difference? bias rest (k + base) (weight * (base - t)) place

/-- Puts in one character after the other; the fuel is the number of digits left. -/
def insertAll? : Nat → List Char → List Char → Nat → Nat → Nat → Option (List Char)
  | _, [], out, _, _, _ => some out
  | 0, _ :: _, _, _, _, _ => none
  | fuel + 1, digits, out, point, place, bias =>
    match difference? bias digits base 1 place with
    | none => none
    | some (stop, rest) =>
      let count := out.length + 1
      let point := point + stop / count
      let at_ := stop % count
      if (Char.ofNat point).toNat ≠ point then none
      else
        insertAll? fuel rest (out.take at_ ++ Char.ofNat point :: out.drop at_) point (at_ + 1)
          (adapt (stop - place) count (place = 0))

/-- What precedes the last hyphen is ASCII, and digits follow it. -/
def decode? (cs : List Char) : Option (List Char) :=
  let parts := cs.splitOn '-'
  let basic := List.intercalate ['-'] parts.dropLast
  let digits := parts.getLastD []
  if cs.head? = some '-' ∧ basic.isEmpty then none
  else insertAll? digits.length digits basic 0x80 0 72

end DeployClient.Url.Punycode
