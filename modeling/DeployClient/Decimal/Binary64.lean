/-!
Numbers in the binary format of 64 bits, exactly.

A finite number is `significand * 2 ^ exponent` with a significand below `2 ^ 53`; the
exponent is the least one that the format allows for it. `ofRatio` rounds a quotient to the
nearest such number, and of two equally near ones to that with the even significand.
-/

namespace DeployClient.Decimal

structure Ratio where
  num : Nat
  den : Nat
deriving DecidableEq, Inhabited

namespace Ratio

/-- `n * base ^ k`, for an exponent of either sign. -/
def scaled (n base : Nat) (k : Int) : Ratio :=
  if 0 ≤ k then ⟨n * Nat.pow base k.toNat, 1⟩ else ⟨n, Nat.pow base (-k).toNat⟩

def le (a b : Ratio) : Bool := a.num * b.den ≤ b.num * a.den

def lt (a b : Ratio) : Bool := a.num * b.den < b.num * a.den

end Ratio

/-- The nearest whole number to `num / den`; a half goes to the even neighbour. -/
def roundDiv (num den : Nat) : Nat :=
  let q := num / den
  let r := num % den
  if 2 * r < den then q
  else if den < 2 * r then q + 1
  else if q % 2 = 0 then q else q + 1

inductive Binary64 where
  | finite (negative : Bool) (significand : Nat) (exponent : Int)
  | infinite (negative : Bool)
  | nan (negative : Bool)
deriving DecidableEq, Inhabited

namespace Binary64

def leastExponent : Int := -1074
def greatestExponent : Int := 971
def precision : Nat := 53

def zero (negative : Bool) : Binary64 := .finite negative 0 leastExponent

/-- Rounds at an exponent; a significand that is rounded up out of range moves the exponent. -/
def roundAt (r : Ratio) (e : Int) : Nat × Int :=
  let m :=
    if 0 ≤ e then roundDiv r.num (r.den * Nat.pow 2 e.toNat)
    else roundDiv (r.num * Nat.pow 2 (-e).toNat) r.den
  if m = Nat.pow 2 precision then (Nat.pow 2 (precision - 1), e + 1) else (m, e)

/-- The exponent at which the quotient has as many bits as the format has room for. -/
def exponentFor (r : Ratio) : Int :=
  let guess : Int := (r.num.log2 : Int) - r.den.log2 - (precision - 1 : Nat)
  let fits := (Ratio.scaled 1 2 (guess + (precision - 1 : Nat))).le r
  max (if fits then guess else guess - 1) leastExponent

def ofRatio (negative : Bool) (r : Ratio) : Binary64 :=
  if r.num = 0 ∨ r.den = 0 then zero negative
  else
    let (m, e) := roundAt r (exponentFor r)
    if greatestExponent < e then .infinite negative else .finite negative m e

/-- The number nearest to `digits * 10 ^ exponent`. Exponents far out of range are not
raised to a power. -/
def ofDecimal (negative : Bool) (digits : Nat) (exponent : Int) : Binary64 :=
  let size : Int := (Nat.toDigits 10 digits).length
  if digits = 0 ∨ exponent + size < -400 then zero negative
  else if 400 < exponent + size then .infinite negative
  else ofRatio negative (Ratio.scaled digits 10 exponent)

def ofNat (n : Nat) : Binary64 := ofRatio false ⟨n, 1⟩

def isNegative : Binary64 → Bool
  | .finite n _ _ => n
  | .infinite n => n
  | .nan n => n

/-- The absolute value of a finite number, and zero for others. -/
def magnitude : Binary64 → Ratio
  | .finite _ m e => Ratio.scaled m 2 e
  | _ => ⟨0, 1⟩

def div (a b : Binary64) : Binary64 :=
  let x := a.magnitude
  let y := b.magnitude
  ofRatio (a.isNegative != b.isNegative) ⟨x.num * y.den, x.den * y.num⟩

end Binary64

end DeployClient.Decimal
