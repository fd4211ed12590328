import DeployClient.Decimal.Binary64

/-!
Numbers as decimal text: with the fewest digits that read back as the same number, or with a
fixed number of places.
-/

namespace DeployClient.Decimal

/-- `0.d₁d₂… * 10 ^ point`, for the decimal digits of `digits`. -/
structure Digits where
  digits : Nat
  point : Int
deriving DecidableEq, Inhabited

namespace Shortest

/-- The numbers that are rounded to a given one: from `low` to `high`, with the ends if the
significand is even. -/
structure Interval where
  value : Ratio
  low : Ratio
  high : Ratio
  closed : Bool

/-- Below a power of two the numbers lie twice as close. -/
def intervalOf (m : Nat) (e : Int) : Interval :=
  let narrow := m = Nat.pow 2 (Binary64.precision - 1) ∧ Binary64.leastExponent < e
  { value := Ratio.scaled (4 * m) 2 (e - 2)
    low := Ratio.scaled (if narrow then 4 * m - 1 else 4 * m - 2) 2 (e - 2)
    high := Ratio.scaled (4 * m + 2) 2 (e - 2)
    closed := m % 2 = 0 }

def Interval.contains (i : Interval) (r : Ratio) : Bool :=
  if i.closed then i.low.le r && r.le i.high else i.low.lt r && r.lt i.high

/-- The least `k` from a guess on with the value below `10 ^ k`. -/
def pointFrom (value : Ratio) : Nat → Int → Int
  | 0, k => k
  | n + 1, k => if value.lt (Ratio.scaled 1 10 k) then k else pointFrom value n (k + 1)

def pointOf (value : Ratio) : Int :=
  let bits : Int := (value.num.log2 : Int) - value.den.log2
  pointFrom value 4 (bits * 30103 / 100000 - 1)

/-- The nearer of the value's two neighbours among the multiples of `10 ^ p` that read back. -/
def candidate? (i : Interval) (p : Int) : Option Nat :=
  let unit := Ratio.scaled 1 10 p
  let below := i.value.num * unit.den / (i.value.den * unit.num)
  let at_ (n : Nat) : Ratio := ⟨n * unit.num, unit.den⟩
  let hitBelow := 0 < below && i.contains (at_ below)
  let hitAbove := i.contains (at_ (below + 1))
  let twice : Ratio := ⟨2 * i.value.num, i.value.den⟩
  let middle : Ratio := at_ (2 * below + 1)
  if hitBelow && hitAbove then
    if middle.lt twice || (!twice.lt middle && below % 2 = 1) then some (below + 1)
    else some below
  else if hitBelow then some below
  else if hitAbove then some (below + 1)
  else none

def search (i : Interval) (point : Int) : Nat → Nat → Digits
  | 0, count => ⟨(candidate? i (point - count)).getD 0, point⟩
  | n + 1, count =>
    match candidate? i (point - count) with
    | some d => if d = Nat.pow 10 count then ⟨1, point + 1⟩ else ⟨d, point⟩
    | none => search i point n (count + 1)

/-- The fewest digits that read back as `m * 2 ^ e`, and of those the nearest. -/
def digits (m : Nat) (e : Int) : Digits :=
  let i := intervalOf m e
  search i (pointOf i.value) 17 1

end Shortest

/-! ### Text -/

def digitChars (n : Nat) : List Char := Nat.toDigits 10 n

/-- Digits without an exponent, and with a point only where there are places. -/
def Digits.positional (d : Digits) : List Char :=
  let ds := digitChars d.digits
  if d.point ≤ 0 then '0' :: '.' :: (List.replicate (-d.point).toNat '0' ++ ds)
  else if d.point.toNat < ds.length then
    ds.take d.point.toNat ++ '.' :: ds.drop d.point.toNat
  else ds ++ List.replicate (d.point.toNat - ds.length) '0'

/-- The value with a fixed number of places; a half goes to the even neighbour. -/
def fixed (places : Nat) (r : Ratio) : List Char :=
  let n := roundDiv (r.num * Nat.pow 10 places) r.den
  let ds := digitChars n
  let ds := List.replicate (places + 1 - ds.length) '0' ++ ds
  ds.take (ds.length - places) ++ '.' :: ds.drop (ds.length - places)

end DeployClient.Decimal
