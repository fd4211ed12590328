import DeployClient.Glob.Pattern

/-!
Matching a pattern against the bytes of a name.

A row of marks, one for each place between two bytes and one for each end, says where the
tokens so far can have stopped. Each token carries the marks to the right, so the time taken
is proportional to the product of the two lengths.
-/

namespace DeployClient.Glob

abbrev Marks := List Bool

def Marks.start (name : Bytes) : Marks := true :: name.map fun _ => false

def Marks.either (a b : Marks) : Marks := List.zipWith (· || ·) a b

/-- Moves each mark over one byte that `p` allows. -/
def Marks.over (p : UInt8 → Bool) (name : Bytes) (m : Marks) : Marks :=
  false :: List.zipWith (fun b marked => marked && p b) name m

/-- Moves each mark over any number of bytes that `p` allows. -/
def Marks.along (p : UInt8 → Bool) : Bool → Bytes → Marks → Marks
  | carried, b :: name, marked :: m =>
    (marked || carried) :: Marks.along p ((marked || carried) && p b) name m
  | carried, [], marked :: _ => [marked || carried]
  | _, _, [] => []

def notSlash (b : UInt8) : Bool := b ≠ Bytes.slash

def Marks.slash (name : Bytes) (m : Marks) : Marks := m.over (· = Bytes.slash) name

def Marks.anything (name : Bytes) (m : Marks) : Marks := m.along (fun _ => true) false name

/-- The bytes of a character, for a class that knows bytes only. -/
def charBytes (c : Char) : Bytes := Bytes.ofText (String.singleton c)

/-- A range joins the last byte of its lower end with the first byte of its upper end; the
other bytes of both ends are members of their own. -/
def inRange (b : UInt8) (range : Char × Char) : Bool :=
  let low := charBytes range.1
  let high := charBytes range.2
  if range.1 = range.2 then low.contains b
  else
    low.dropLast.contains b || high.tail.contains b
      || (low.getLastD 0 ≤ b && b ≤ high.headD 0)

def inClass (negated : Bool) (ranges : List (Char × Char)) (b : UInt8) : Bool :=
  (ranges.any (inRange b)) != negated

mutual

/-- Stands for the empty text alone: a group all of whose branches do. -/
def Token.isVoid : Token → Bool
  | .alternatives bs => branchesVoid bs
  | .literal _ => false
  | .anyByte => false
  | .star => false
  | .leadingTree => false
  | .trailingTree => false
  | .innerTree => false
  | .byteClass .. => false

def tokensVoid : List Token → Bool
  | [] => true
  | t :: ts => t.isVoid && tokensVoid ts

def branchesVoid : List (List Token) → Bool
  | [] => true
  | b :: bs => tokensVoid b && branchesVoid bs

end

mutual

def Token.carry (name : Bytes) : Token → Marks → Marks
  | .literal c, m => (charBytes c).foldl (fun m b => m.over (· = b) name) m
  | .anyByte, m => m.over notSlash name
  | .star, m => m.along notSlash false name
  | .leadingTree, m => m.either ((m.anything name).slash name)
  | .trailingTree, m => (m.slash name).anything name
  | .innerTree, m =>
    let after := m.slash name
    after.either ((after.anything name).slash name)
  | .byteClass negated ranges, m => m.over (inClass negated ranges) name
  | .alternatives bs, m => if branchesVoid bs then m else carryBranches name bs m

def carryTokens (name : Bytes) : List Token → Marks → Marks
  | [], m => m
  | t :: ts, m => carryTokens name ts (t.carry name m)

/-- Branches that stand for the empty text alone are left out. -/
def carryBranches (name : Bytes) : List (List Token) → Marks → Marks
  | [], m => m.map fun _ => false
  | b :: bs, m =>
    if tokensVoid b then carryBranches name bs m
    else (carryTokens name b m).either (carryBranches name bs m)

end

/-! ### Patterns about the last component

A pattern that fixes the last component, or its extension, is asked of the last component;
a name that ends in `..` has none. -/

def Token.literal? : Token → Option Char
  | .literal c => some c
  | _ => none

def asLiteral? (ts : List Token) : Option (List Char) := ts.mapM Token.literal?

/-- Ends in a dot and further literal characters of one extension. -/
def endsInExtension (ts : List Token) : Bool :=
  match (ts.reverse.dropWhile fun t => t.literal?.any fun c => c ≠ '.' && c ≠ '/') with
  | .literal '.' :: _ => true
  | _ => false

def asksLastComponent (ts : Pattern) : Bool :=
  match ts with
  | .leadingTree :: rest =>
    match asLiteral? rest with
    | some cs => !cs.isEmpty && !cs.contains '/'
    | none => endsInExtension ts
  | _ => (asLiteral? ts).isNone && endsInExtension ts

def endsInParent (name : Bytes) : Bool :=
  (name.splitOn Bytes.slash).getLast? = some [Bytes.dot, Bytes.dot]

def Pattern.isMatch (p : Pattern) (name : Bytes) : Bool :=
  match p with
  | [.leadingTree] => true
  | _ =>
    !(asksLastComponent p && endsInParent name)
      && (carryTokens name p (Marks.start name)).getLastD false

end DeployClient.Glob
