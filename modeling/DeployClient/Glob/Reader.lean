import DeployClient.Glob.Pattern

/-!
Reading the text of a pattern.

The reader keeps the branch that it is in, its last token first, and the groups that are
open around it. A class that is never closed is no class: its bracket, and every later one,
stands for itself.
-/

namespace DeployClient.Glob

/-- An open group: the branch that it interrupts and its own branches so far. -/
structure Group where
  outer : List Token
  branches : List (List Token)

structure Reader where
  before : Option Char
  branch : List Token
  groups : List Group
  plainBrackets : Bool

namespace Reader

def start : Reader := ⟨none, [], [], false⟩

def push (r : Reader) (t : Token) : Reader := { r with branch := t :: r.branch }

def openGroup (r : Reader) : Reader :=
  { r with branch := [], groups := ⟨r.branch, []⟩ :: r.groups }

def nextBranch (r : Reader) : Reader :=
  match r.groups with
  | [] => r.push (.literal ',')
  | g :: gs =>
    { r with branch := [], groups := { g with branches := g.branches ++ [r.branch.reverse] } :: gs }

def closeGroup (r : Reader) : Except PatternError Reader :=
  match r.groups with
  | [] => .error .unopenedGroup
  | g :: gs =>
    let group := Token.alternatives (g.branches ++ [r.branch.reverse])
    .ok { r with branch := group :: g.outer, groups := gs }

/-- Two stars that do not stand between slashes. -/
def twoStars (r : Reader) : Reader := (r.push .star).push .star

/-- The last token gives way to a tree, unless it is one. -/
def replaceByTree (r : Reader) (tree : Token) : Reader :=
  match r.branch with
  | .leadingTree :: _ => r
  | .trailingTree :: _ => r
  | _ :: ts => { r with branch := tree :: ts }
  | [] => { r with branch := [tree] }

/-- Reads on after a star. The reader still holds the character before it. -/
def readStar (r : Reader) (rest : List Char) : Reader × List Char :=
  let starred := { r with before := some '*' }
  match rest with
  | '*' :: rest =>
    if r.branch.isEmpty then
      match rest with
      | [] => (starred.push .leadingTree, [])
      | '/' :: rest => ({ r with before := some '/' }.push .leadingTree, rest)
      | rest => (starred.twoStars, rest)
    else if r.before ≠ some '/' ∧
        (r.groups.isEmpty ∨ (r.before ≠ some ',' ∧ r.before ≠ some '\x7b')) then
      (starred.twoStars, rest)
    else
      match rest with
      | [] => (starred.replaceByTree .trailingTree, [])
      | '/' :: rest => ({ r with before := some '/' }.replaceByTree .innerTree, rest)
      | c :: rest =>
        if (c = ',' ∨ c = '\x7d') ∧ !r.groups.isEmpty then
          (starred.replaceByTree .trailingTree, c :: rest)
        else (starred.twoStars, c :: rest)
  | rest => (starred.push .star, rest)

/-- The members of a class and what follows its bracket, if it is closed. The ranges read so
far come last one first. -/
def readClass (first inRange : Bool) (ranges : List (Char × Char)) :
    List Char → Except PatternError (Option (List (Char × Char) × List Char))
  | [] => .ok none
  | c :: rest =>
    if c = ']' ∧ !first then
      .ok (some ((if inRange then ('-', '-') :: ranges else ranges).reverse, rest))
    else if c = '-' ∧ !first ∧ !inRange then readClass false true ranges rest
    else if c ≠ ']' ∧ inRange then
      match ranges with
      | (low, _) :: others =>
        if c < low then .error (.invalidRange low c)
        else readClass false false ((low, c) :: others) rest
      | [] => readClass false false [(c, c)] rest
    else readClass false false ((c, c) :: ranges) rest

def readBracket (r : Reader) (rest : List Char) : Except PatternError (Reader × List Char) :=
  let (negated, body) :=
    match rest with
    | '!' :: body => (true, body)
    | '^' :: body => (true, body)
    | body => (false, body)
  match readClass true false [] body with
  | .error e => .error e
  | .ok none => .ok ({ r with before := some '[', plainBrackets := true }.push (.literal '['), rest)
  | .ok (some (ranges, rest)) =>
    .ok ({ r with before := some ']' }.push (.byteClass negated ranges), rest)

def step (r : Reader) (c : Char) (rest : List Char) : Except PatternError (Reader × List Char) :=
  let next := { r with before := some c }
  match c with
  | '?' => .ok (next.push .anyByte, rest)
  | '*' => .ok (r.readStar rest)
  | '[' => if r.plainBrackets then .ok (next.push (.literal '['), rest) else r.readBracket rest
  | '\x7b' => .ok (next.openGroup, rest)
  | '\x7d' => next.closeGroup.map (·, rest)
  | ',' => .ok (next.nextBranch, rest)
  | '\\' =>
    match rest with
    | [] => .error .danglingEscape
    | e :: rest => .ok ({ r with before := some e }.push (.literal e), rest)
  | c => .ok (next.push (.literal c), rest)

def finish (r : Reader) : Except PatternError Pattern :=
  match r.groups with
  | [] => .ok r.branch.reverse
  | _ => .error .unclosedGroup

/-- Every step takes at least one character, so their number bounds the steps. -/
def run : Nat → Reader → List Char → Except PatternError Pattern
  | _, r, [] => r.finish
  | 0, r, _ => r.finish
  | n + 1, r, c :: rest =>
    match r.step c rest with
    | .error e => .error e
    | .ok (r, rest) => run n r rest

end Reader

def Pattern.read (text : List Char) : Except PatternError Pattern :=
  Reader.run text.length Reader.start text

end DeployClient.Glob
