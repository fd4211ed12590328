/-!
What readers of the format disagree about.
-/

namespace DeployClient.Toml

structure Dialect where
  /-- Brackets and braces are nested less deeply than this, and paths of keys are shorter. -/
  depthBound : Nat
  /-- Inside braces, a dotted key may add to a table that has been closed. -/
  reopensTables : Bool
  /-- A table may stand for a date. -/
  spellsDates : Bool
deriving DecidableEq, Inhabited

def Dialect.allows (d : Dialect) (depth : Nat) : Bool := depth < d.depthBound

/-- A table whose first key is this one stands for the date that the text under it spells. -/
def dateKey : String := "$__toml_private_datetime"

end DeployClient.Toml
