import DeployClient.Toml.Dialect
import DeployClient.Toml.Scalar

/-!
Building a document from its headers and its keys with values.

Tables come into being in several ways: by a header, by being on the way to another header,
by a dotted key, or between braces. Which way it was decides what may still be added to them.
While the document is built, entries stand in the order in which they are written.
-/

namespace DeployClient.Toml

/-- How a table came into being. -/
structure Origin where
  /-- No header has named it. -/
  implicit : Bool
  /-- A dotted key has made it. -/
  dotted : Bool
deriving DecidableEq, Inhabited

inductive Item where
  | value (v : Value)
  | array (elements : List Item)
  /-- A table between braces, or one in it that a dotted key has made. -/
  | inline (dotted : Bool) (entries : List (String × Item))
  | table (origin : Origin) (entries : List (String × Item))
  | tables (elements : List (List (String × Item)))
deriving Inhabited

abbrev Items := List (String × Item)

/-! ### What items stand for -/

def Item.moment? : Item → Option Moment
  | .value (.string s) => Toml.moment? s.toList
  | _ => none

/-- The value of a table from its items and its entries. -/
def tableValue? (d : Dialect) (es : Items) (entries : Option Entries) : Option Value :=
  match es with
  | (k, i) :: _ =>
    if d.spellsDates ∧ k = dateKey then i.moment?.map .moment else entries.map .table
  | [] => entries.map .table

mutual

def Item.value? (d : Dialect) : Item → Option Value
  | .value v => some v
  | .array is => (itemValues? d is).map .array
  | .inline _ es => tableValue? d es (itemEntries? d es)
  | .table _ es => tableValue? d es (itemEntries? d es)
  | .tables ts => (tableValues? d ts).map .array

def itemValues? (d : Dialect) : List Item → Option (List Value)
  | [] => some []
  | i :: is =>
    match i.value? d, itemValues? d is with
    | some v, some vs => some (v :: vs)
    | _, _ => none

def itemEntries? (d : Dialect) : List (String × Item) → Option Entries
  | [] => some []
  | (k, i) :: es =>
    match i.value? d, itemEntries? d es with
    | some v, some vs => some (insert k v vs)
    | _, _ => none

def tableValues? (d : Dialect) : List (List (String × Item)) → Option (List Value)
  | [] => some []
  | es :: ts =>
    match tableValue? d es (itemEntries? d es), tableValues? d ts with
    | some v, some vs => some (v :: vs)
    | _, _ => none

end

/-! ### Tables between braces -/

/-- Puts an item under a path of keys. Only tables that dotted keys have made can be entered,
unless tables can be opened again. -/
def assignInline (d : Dialect) (i : Item) : List String → Items → Option Items
  | [], _ => none
  | [k], es => if (lookup? k es).isSome then none else some (put k i es)
  | k :: ks, es =>
    match lookup? k es with
    | none => (assignInline d i ks []).map fun t => put k (.inline true t) es
    | some (.inline dotted inner) =>
      if dotted ∨ d.reopensTables then
        (assignInline d i ks inner).map fun t => put k (.inline dotted t) es
      else none
    | some _ => none

def inlineTable? (d : Dialect) (pairs : List (List String × Item)) : Option Item :=
  (pairs.foldlM (fun es p => assignInline d p.2 p.1 es) []).map (.inline false)

/-! ### Tables with headers -/

/-- A change of a table, which may be refused. -/
abbrev Change := Origin → Items → Option (Origin × Items)

/-- Goes down a path of keys and makes the change there. Missing tables are made, and of an
array of tables the last one is meant. Dotted keys enter no table that has a header. -/
def descend (dotted : Bool) (change : Change) : List String → Change
  | [], o, es => change o es
  | k :: ks, o, es =>
    match lookup? k es with
    | none =>
      (descend dotted change ks ⟨true, dotted⟩ []).map fun t => (o, put k (.table t.1 t.2) es)
    | some (.table o' es') =>
      if dotted ∧ !o'.implicit then none
      else (descend dotted change ks o' es').map fun t => (o, put k (.table t.1 t.2) es)
    | some (.tables ts) =>
      (descend dotted change ks ⟨false, false⟩ (ts.getLastD [])).map fun t =>
        (o, put k (.tables (ts.dropLast ++ [t.2])) es)
    | some _ => none

/-- The table that is open stands last among its neighbours. -/
def putLast (key : String) (i : Item) (es : Items) : Items :=
  (es.filter fun e => e.1 ≠ key) ++ [(key, i)]

/-- Opens a table by its header. It may exist only as a table on the way to others. -/
def openTable (key : String) : Change := fun o es =>
  match lookup? key es with
  | none => some (o, putLast key (.table ⟨false, false⟩ []) es)
  | some (.table o' es') =>
    if o'.implicit ∧ !o'.dotted then some (o, putLast key (.table ⟨false, false⟩ es') es)
    else none
  | some _ => none

/-- Adds a table to an array of tables. -/
def openElement (key : String) : Change := fun o es =>
  match lookup? key es with
  | none => some (o, put key (.tables [[]]) es)
  | some (.tables ts) => some (o, put key (.tables (ts ++ [[]])) es)
  | some _ => none

/-- Puts an item under a new key. A dotted key ends in a table of dotted keys, and a plain
one in a table that is none. -/
def putNew (plain : Bool) (key : String) (i : Item) : Change := fun o es =>
  if o.dotted = plain then none
  else if (lookup? key es).isSome then none
  else some (o, put key i es)

/-! ### Documents -/

/-- The document so far and the path of the table that is open. -/
structure Document where
  items : Items
  path : List String
deriving Inhabited

namespace Document

def empty : Document := ⟨[], []⟩

def rootOrigin : Origin := ⟨false, false⟩

def header (doc : Document) (change : String → Change) (keys : List String) : Option Document :=
  match keys.getLast? with
  | none => none
  | some key =>
    (descend false (change key) keys.dropLast rootOrigin doc.items).map fun t => ⟨t.2, keys⟩

def assign (doc : Document) (keys : List String) (i : Item) : Option Document :=
  match keys.getLast? with
  | none => none
  | some key =>
    let inner : Change := fun o es =>
      descend true (putNew (keys.length = 1) key i) keys.dropLast o es
    (descend false inner doc.path rootOrigin doc.items).map fun t => { doc with items := t.2 }

def entries? (d : Dialect) (doc : Document) : Option Entries := itemEntries? d doc.items

end Document

end DeployClient.Toml
