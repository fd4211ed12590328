import DeployClient.Decimal.Binary64

/-!
What a configuration file can say: strings, numbers, dates, arrays and tables.

A table keeps its entries in the order of their keys, so two tables with the same entries
are equal.
-/

namespace DeployClient.Toml

structure Date where
  year : Nat
  month : Nat
  day : Nat
deriving DecidableEq, Inhabited

structure Time where
  hour : Nat
  minute : Nat
  second : Nat
  nanosecond : Nat
deriving DecidableEq, Inhabited

inductive Offset where
  | zulu
  | minutes (m : Int)
deriving DecidableEq, Inhabited

/-- A date, a time of day, or both, and the offset if it is known. -/
structure Moment where
  date : Option Date
  time : Option Time
  offset : Option Offset
deriving DecidableEq, Inhabited

inductive Value where
  | string (s : String)
  | integer (i : Int)
  | float (f : Decimal.Binary64)
  | boolean (b : Bool)
  | moment (m : Moment)
  | array (vs : List Value)
  | table (entries : List (String × Value))
deriving Inhabited

abbrev Entries := List (String × Value)

namespace Value

def isTable : Value → Bool
  | .table _ => true
  | _ => false

def string? : Value → Option String
  | .string s => some s
  | _ => none

end Value

/-! ### Entries -/

section

variable {α : Type}

def lookup? (key : String) (es : List (String × α)) : Option α :=
  (es.find? fun e => e.1 = key).map Prod.snd

/-- Puts a value under a key, in the place of the one before or where the key belongs. -/
def insert (key : String) (v : α) : List (String × α) → List (String × α)
  | [] => [(key, v)]
  | (k, w) :: es =>
    if key < k then (key, v) :: (k, w) :: es
    else if key = k then (key, v) :: es
    else (k, w) :: insert key v es

/-- Puts a value under a key, in the place of the one before or at the end. -/
def put (key : String) (v : α) : List (String × α) → List (String × α)
  | [] => [(key, v)]
  | (k, w) :: es => if key = k then (key, v) :: es else (k, w) :: put key v es

end

end DeployClient.Toml
