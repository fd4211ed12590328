import DeployClient.Decimal.Shortest

/-!
Sizes in the largest decimal unit that they exceed, with two places. A size of exactly one
unit is still written in the unit below.
-/

namespace DeployClient.ByteSize

def thousands (power : Nat) : Nat := Nat.pow 1000 power

/-- The units, with the powers of a thousand that they stand for. -/
def units : List (String × Nat) :=
  [("YB", 8), ("ZB", 7), ("EB", 6), ("PB", 5), ("TB", 4), ("GB", 3), ("MB", 2), ("KB", 1)]

def text (size : Nat) : String :=
  match units.find? fun u => thousands u.2 < size with
  | none => s!"{size} B"
  | some (name, power) =>
    let value := (Decimal.Binary64.ofNat size).div (Decimal.Binary64.ofNat (thousands power))
    String.ofList (Decimal.fixed 2 value.magnitude) ++ " " ++ name

end DeployClient.ByteSize
