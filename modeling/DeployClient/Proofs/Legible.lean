import DeployClient.Proofs.SortedEntries
import DeployClient.Toml.Document

/-!
What can be written so that it can be read back.

Two things stand in the way. A reader refuses brackets, braces and paths of keys from some depth
on, and tables that were nested by dotted keys are written under headers with longer paths and in
deeper braces than they were read from. And a table may be taken for a date if the key that comes
first is the one that stands for dates, which need not have come first in the file it was read
from.
-/

namespace DeployClient.Toml

/-! ### Values without dates and floats -/

mutual

/-- Strings, integers, truth values, and arrays and tables of such values. -/
def Value.isSimple : Value → Bool
  | .string _ => true
  | .integer _ => true
  | .float _ => false
  | .boolean _ => true
  | .moment _ => false
  | .array vs => areSimple vs
  | .table es => entriesAreSimple es

def areSimple : List Value → Bool
  | [] => true
  | v :: vs => v.isSimple && areSimple vs

def entriesAreSimple : List (String × Value) → Bool
  | [] => true
  | (_, v) :: es => v.isSimple && entriesAreSimple es

end

lemma areSimple_iff {vs : List Value} : areSimple vs = true ↔ ∀ v ∈ vs, v.isSimple = true := by
  induction vs with
  | nil => simp [areSimple]
  | cons v vs ih => simp [areSimple, ih]

lemma entriesAreSimple_iff {es : Entries} :
    entriesAreSimple es = true ↔ ∀ e ∈ es, e.2.isSimple = true := by
  induction es with
  | nil => simp [entriesAreSimple]
  | cons e es ih => simp [entriesAreSimple, ih]

/-- What reading a file gives: integers that fit into 64 bits, and tables in order. -/
inductive Value.Orderly : Value → Prop
  | string (s : String) : Orderly (.string s)
  | integer {i : Int} (h : inRange? i = some i) : Orderly (.integer i)
  | float (f : Decimal.Binary64) : Orderly (.float f)
  | boolean (b : Bool) : Orderly (.boolean b)
  | moment (m : Moment) : Orderly (.moment m)
  | array {vs : List Value} (h : ∀ v ∈ vs, Orderly v) : Orderly (.array vs)
  | table {es : Entries} (sorted : Sorted es) (h : ∀ e ∈ es, Orderly e.2) : Orderly (.table es)

/-! ### Values that can be read back -/

/-- A table that is written with these entries, in this order, is taken for a date. -/
def Dialect.takesForDate (d : Dialect) (es : Entries) : Bool :=
  d.spellsDates && es.head?.map Prod.fst = some dateKey

/-- Lines come before headers. -/
def linesFirst (es : Entries) : Entries :=
  es.filter (fun e => e.2.isInline) ++ es.filter (fun e => !e.2.isInline)

/-- The entries under a header in the order in which they are written. -/
def written (es : Entries) : Entries := linesFirst (ranked es)

mutual

/-- A value can be read back that stands on a line inside of `depth` brackets and braces. -/
def Value.isLegible (d : Dialect) (depth : Nat) : Value → Bool
  | .string _ => true
  | .integer _ => true
  | .float _ => true
  | .boolean _ => true
  | .moment _ => true
  | .array vs => d.allows (depth + 1) && areLegible d (depth + 1) vs
  | .table es =>
    d.allows (depth + 1) && !d.takesForDate (ranked es) && entriesAreLegible d (depth + 1) es

def areLegible (d : Dialect) (depth : Nat) : List Value → Bool
  | [] => true
  | v :: vs => v.isLegible d depth && areLegible d depth vs

def entriesAreLegible (d : Dialect) (depth : Nat) : List (String × Value) → Bool
  | [] => true
  | (_, v) :: es => v.isLegible d depth && entriesAreLegible d depth es

end

mutual

/-- A value can be read back that so many keys lead to, on a line or under headers of its own. -/
def Value.isLegibleUnder (d : Dialect) (keys : Nat) : Value → Bool
  | .string _ => true
  | .integer _ => true
  | .float _ => true
  | .boolean _ => true
  | .moment _ => true
  | .array vs =>
    if (Value.array vs).isTableArray then areLegibleUnder d keys vs
    else (Value.array vs).isLegible d 0
  | .table es => d.allows keys && !d.takesForDate (written es) && entriesAreLegibleUnder d keys es

def areLegibleUnder (d : Dialect) (keys : Nat) : List Value → Bool
  | [] => true
  | v :: vs => v.isLegibleUnder d keys && areLegibleUnder d keys vs

def entriesAreLegibleUnder (d : Dialect) (keys : Nat) : List (String × Value) → Bool
  | [] => true
  | (_, v) :: es => v.isLegibleUnder d (keys + 1) && entriesAreLegibleUnder d keys es

end

variable {d : Dialect} {depth keys : Nat} {vs : List Value} {es l : Entries} {its : Items}

lemma areLegible_iff : areLegible d depth vs = true ↔ ∀ v ∈ vs, v.isLegible d depth = true := by
  induction vs with
  | nil => simp [areLegible]
  | cons v vs ih => simp [areLegible, ih]

lemma entriesAreLegible_iff :
    entriesAreLegible d depth es = true ↔ ∀ e ∈ es, e.2.isLegible d depth = true := by
  induction es with
  | nil => simp [entriesAreLegible]
  | cons e es ih => simp [entriesAreLegible, ih]

lemma areLegibleUnder_iff :
    areLegibleUnder d keys vs = true ↔ ∀ v ∈ vs, v.isLegibleUnder d keys = true := by
  induction vs with
  | nil => simp [areLegibleUnder]
  | cons v vs ih => simp [areLegibleUnder, ih]

lemma entriesAreLegibleUnder_iff :
    entriesAreLegibleUnder d keys es = true ↔ ∀ e ∈ es, e.2.isLegibleUnder d (keys + 1) = true := by
  induction es with
  | nil => simp [entriesAreLegibleUnder]
  | cons e es ih => simp [entriesAreLegibleUnder, ih]

/-- A value that stands on a line of its own stands inside of nothing. -/
lemma Value.isLegible_of_isInline {v : Value} (hv : v.isInline = true)
    (h : v.isLegibleUnder d keys = true) : v.isLegible d 0 = true := by
  cases v with
  | array vs =>
    have harray : (Value.array vs).isTableArray = false := by
      simpa [Value.isInline, Value.isTable] using hv
    rw [Value.isLegibleUnder, harray] at h
    simpa using h
  | table es => simp [Value.isInline, Value.isTable] at hv
  | _ => rfl

/-- Arrays and tables are nested so deeply at most, and no table has the key that stands for
dates. -/
inductive Value.Shallow : Nat → Value → Prop
  | string (n : Nat) (s : String) : Shallow n (.string s)
  | integer (n : Nat) (i : Int) : Shallow n (.integer i)
  | float (n : Nat) (f : Decimal.Binary64) : Shallow n (.float f)
  | boolean (n : Nat) (b : Bool) : Shallow n (.boolean b)
  | moment (n : Nat) (m : Moment) : Shallow n (.moment m)
  | array {n : Nat} {vs : List Value} (h : ∀ v ∈ vs, Shallow n v) : Shallow (n + 1) (.array vs)
  | table {n : Nat} {es : Entries} (keys : ∀ e ∈ es, e.1 ≠ dateKey)
      (h : ∀ e ∈ es, Shallow n e.2) : Shallow (n + 1) (.table es)

/-! ### The order in which a table is written -/

lemma linesFirst_perm (es : Entries) : (linesFirst es).Perm es :=
  List.filter_append_perm (fun e : String × Value => e.2.isInline) es

lemma written_perm (es : Entries) : (written es).Perm es :=
  (linesFirst_perm (ranked es)).trans (ranked_perm es)

lemma Dialect.takesForDate_eq_false (hperm : l.Perm es) (h : ∀ e ∈ es, e.1 ≠ dateKey) :
    d.takesForDate l = false := by
  cases l with
  | nil => simp [Dialect.takesForDate]
  | cons e l =>
    have hkey := h e (hperm.mem_iff.mp List.mem_cons_self)
    simp [Dialect.takesForDate, hkey]

lemma Value.Shallow.isLegible {v : Value} {n : Nat} (h : v.Shallow n)
    (hn : n + depth < d.depthBound) : v.isLegible d depth = true := by
  induction h generalizing depth with
  | array _ ih =>
    rw [Value.isLegible, Bool.and_eq_true, areLegible_iff]
    exact ⟨decide_eq_true (by omega), fun v hv => ih v hv (by omega)⟩
  | @table n es hkeys _ ih =>
    rw [Value.isLegible, Bool.and_eq_true, Bool.and_eq_true, entriesAreLegible_iff,
      Dialect.takesForDate_eq_false (ranked_perm es) hkeys]
    exact ⟨⟨decide_eq_true (by omega), rfl⟩, fun e he => ih e he (by omega)⟩
  | _ => rfl

/-- **What is not nested deeply and has no date among its keys is legible.** -/
theorem Value.Shallow.isLegibleUnder {v : Value} {n : Nat} (h : v.Shallow n)
    (hn : n + keys < d.depthBound) : v.isLegibleUnder d keys = true := by
  have hshallow := h
  induction h generalizing keys with
  | array h ih =>
    rw [Value.isLegibleUnder]
    split
    · exact areLegibleUnder_iff.mpr fun v hv => ih v hv (by omega) (h v hv)
    · exact hshallow.isLegible (by omega)
  | @table n es hkeys h ih =>
    rw [Value.isLegibleUnder, Bool.and_eq_true, Bool.and_eq_true, entriesAreLegibleUnder_iff,
      Dialect.takesForDate_eq_false (written_perm es) hkeys]
    exact ⟨⟨decide_eq_true (by omega), rfl⟩, fun e he => ih e he (by omega) (h e he)⟩
  | _ => rfl

/-- Items that stand for entries, one for the other. -/
def Stands (d : Dialect) (its : Items) (es : Entries) : Prop :=
  List.Forall₂ (fun i e => i.1 = e.1 ∧ i.2.value? d = some e.2) its es

namespace Stands

lemma keys_eq (h : Stands d its es) : its.map Prod.fst = es.map Prod.fst := by
  induction h with
  | nil => rfl
  | cons hhead _ ih => rw [List.map_cons, List.map_cons, hhead.1, ih]

lemma itemEntries?_eq (h : Stands d its es) :
    itemEntries? d its = some (es.foldr (fun e => insert e.1 e.2) []) := by
  induction h with
  | nil => rfl
  | cons hhead _ ih => simp only [itemEntries?, hhead.2, ih, hhead.1, List.foldr_cons]

/-- **Items in whatever order stand for the table in the order of its keys**, unless they are
taken for a date. -/
theorem tableValue?_eq (h : Stands d its l) (hdate : d.takesForDate l = false)
    (hperm : l.Perm es) (hes : Sorted es) :
    tableValue? d its (itemEntries? d its) = some (.table es) := by
  rw [h.itemEntries?_eq, foldr_insert_of_perm hes hperm]
  cases h with
  | nil => rfl
  | @cons i e its l hhead _ =>
    have hkey : ¬(d.spellsDates = true ∧ i.1 = dateKey) := by
      simpa [Dialect.takesForDate, hhead.1] using hdate
    rw [tableValue?, if_neg hkey]
    rfl

end Stands

end DeployClient.Toml
