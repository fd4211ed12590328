import DeployClient.Bytes

/-!
Shell patterns over slash-separated names.

A pattern is a row of tokens. `*` and `?` stay within one component; `**` between slashes
stands for any number of whole components, and what it stands for depends on whether it
begins the pattern, ends it or lies in between.
-/

namespace DeployClient.Glob

inductive Token where
  | literal (c : Char)
  | anyByte
  | star
  | leadingTree
  | trailingTree
  | innerTree
  | byteClass (negated : Bool) (ranges : List (Char × Char))
  | alternatives (branches : List (List Token))
deriving Inhabited

abbrev Pattern := List Token

inductive PatternError where
  | invalidRange (low high : Char)
  | danglingEscape
  | unclosedGroup
  | unopenedGroup
deriving DecidableEq, Inhabited

def PatternError.message : PatternError → String
  | .invalidRange low high => s!"invalid range; '{low}' > '{high}'"
  | .danglingEscape => "dangling '\\'"
  | .unclosedGroup =>
    "unclosed alternate group; missing '\x7d' (maybe escape '\x7b' with '[\x7b]'?)"
  | .unopenedGroup =>
    "unopened alternate group; missing '\x7b' (maybe escape '\x7d' with '[\x7d]'?)"

end DeployClient.Glob
