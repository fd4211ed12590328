import DeployClient.Proofs.SortedEntries
import DeployClient.Settings.Config
import Mathlib.Tactic.Common

/-!
Readers that allow more.

A reader that allows deeper nesting and lets tables be opened again reads what a stricter one reads,
and builds the same document. What the document then stands for may differ, but only in tables that
one of the readers takes for dates.
-/

namespace DeployClient.Toml

/-- The second reader allows whatever the first one does. -/
structure Dialect.IsWithin (d d' : Dialect) : Prop where
  depth : d.depthBound ≤ d'.depthBound
  reopens : d.reopensTables = true → d'.reopensTables = true

variable {d d' : Dialect} {n depth : ℕ} {cs rest : List Char} {k : String} {ks : List String}
  {i : Item} {is : List Item} {its its' : Items} {v w : Value} {es es' : Entries}
  {doc doc' : Document}

namespace Dialect.IsWithin

lemma allows (h : d.IsWithin d') (hd : d.allows depth = true) : d'.allows depth = true := by
  have hlt : depth < d.depthBound := of_decide_eq_true hd
  exact decide_eq_true (hlt.trans_le h.depth)

lemma readPath (h : d.IsWithin d') (hread : readPath d n cs = some (ks, rest)) :
    Toml.readPath d' n cs = some (ks, rest) := by
  obtain ⟨hkeys, hd⟩ := Option.filter_eq_some_iff.mp hread
  exact Option.filter_eq_some_iff.mpr ⟨hkeys, h.allows hd⟩

/-! ### Tables between braces -/

lemma assignInline (h : d.IsWithin d') (hput : assignInline d i ks its = some its') :
    Toml.assignInline d' i ks its = some its' := by
  induction ks generalizing its its' with
  | nil => simp [Toml.assignInline] at hput
  | cons k ks ih =>
    cases ks with
    | nil => exact hput
    | cons l ks =>
      rw [Toml.assignInline.eq_def] at hput ⊢
      simp only at hput ⊢
      split at hput
      · obtain ⟨t, ht, rfl⟩ := Option.map_eq_some_iff.mp hput
        rw [ih ht, Option.map_some]
      · next dotted inner hinner =>
        split at hput
        · next hopen =>
          obtain ⟨t, ht, rfl⟩ := Option.map_eq_some_iff.mp hput
          rw [if_pos (hopen.imp_right h.reopens), ih ht, Option.map_some]
        · simp at hput
      · simp at hput

lemma inlineTable? (h : d.IsWithin d') {pairs : List (List String × Item)}
    (hread : inlineTable? d pairs = some i) : Toml.inlineTable? d' pairs = some i := by
  obtain ⟨its, hits, rfl⟩ := Option.map_eq_some_iff.mp hread
  have hrun : ∀ start : Items,
      pairs.foldlM (fun es p => Toml.assignInline d p.2 p.1 es) start = some its →
      pairs.foldlM (fun es p => Toml.assignInline d' p.2 p.1 es) start = some its := by
    clear hread hits
    induction pairs with
    | nil => exact fun _ hits => hits
    | cons p pairs ih =>
      intro start hits
      rw [List.foldlM_cons] at hits ⊢
      obtain ⟨next, hnext, hits⟩ := Option.bind_eq_some_iff.mp hits
      exact Option.bind_eq_some_iff.mpr ⟨next, h.assignInline hnext, ih next hits⟩
  rw [Toml.inlineTable?, hrun [] hits, Option.map_some]

end Dialect.IsWithin

/-! ### Reading -/

/-- With so many steps, the second reader gives what the first one gives. -/
structure ReadsToo (d d' : Dialect) (n : ℕ) : Prop where
  item : ∀ depth cs p, readItem d n depth cs = some p → readItem d' n depth cs = some p
  elements : ∀ depth cs p, readElements d n depth cs = some p →
    readElements d' n depth cs = some p
  pairs : ∀ depth cs p, readPairs d n depth cs = some p → readPairs d' n depth cs = some p

lemma readsToo (h : d.IsWithin d') (n : ℕ) : ReadsToo d d' n := by
  induction n with
  | zero => constructor <;> intro _ _ _ hread <;> simp [readItem, readElements, readPairs] at hread
  | succ n ih =>
    constructor
    · intro depth cs p hread
      unfold readItem at hread ⊢
      split at hread
      · split at hread
        · next hd =>
          obtain ⟨q, hq, rfl⟩ := Option.map_eq_some_iff.mp hread
          simp only [if_pos (h.allows hd), ih.elements _ _ _ hq, Option.map_some]
        · simp at hread
      · split at hread
        · next hd =>
          simp only [if_pos (h.allows hd)]
          split at hread
          · exact hread
          · split at hread
            · simp at hread
            · next pairs r hpairs =>
              obtain ⟨i, hi, rfl⟩ := Option.map_eq_some_iff.mp hread
              simp only [ih.pairs _ _ _ hpairs, h.inlineTable? hi, Option.map_some]
        · simp at hread
      · exact hread
    · intro depth cs p hread
      unfold readElements at hread ⊢
      split at hread
      · simp at hread
      · exact hread
      · split at hread
        · simp at hread
        · next i r hitem =>
          simp only [ih.item _ _ _ hitem]
          split at hread
          · obtain ⟨q, hq, rfl⟩ := Option.map_eq_some_iff.mp hread
            simp only [ih.elements _ _ _ hq, Option.map_some]
          · exact hread
          · simp at hread
    · intro depth cs p hread
      unfold readPairs at hread ⊢
      split at hread
      · next keys r hpath =>
        simp only [h.readPath hpath]
        split at hread
        · simp at hread
        · next i r hitem =>
          simp only [ih.item _ _ _ hitem]
          split at hread
          · obtain ⟨q, hq, rfl⟩ := Option.map_eq_some_iff.mp hread
            simp only [ih.pairs _ _ _ hq, Option.map_some]
          · exact hread
          · simp at hread
      · simp at hread

lemma readHeader_of_isWithin (h : d.IsWithin d')
    (hread : readHeader d n doc cs = some (doc', rest)) :
    readHeader d' n doc cs = some (doc', rest) := by
  unfold readHeader at hread ⊢
  split at hread
  all_goals
    split at hread
    · next hpath => simpa only [h.readPath hpath] using hread
    · simp at hread

lemma readAssignment_of_isWithin (h : d.IsWithin d')
    (hread : readAssignment d n doc cs = some (doc', rest)) :
    readAssignment d' n doc cs = some (doc', rest) := by
  unfold readAssignment at hread ⊢
  split at hread
  · next hpath =>
    split at hread
    · simp at hread
    · next hitem => simpa only [h.readPath hpath, (readsToo h n).item _ _ _ hitem] using hread
  · simp at hread

/-- **What a stricter reader reads, a laxer one reads too.** -/
theorem readLines_of_isWithin (h : d.IsWithin d') (hread : readLines d n doc cs = some doc') :
    readLines d' n doc cs = some doc' := by
  induction n generalizing doc cs with
  | zero => simp [readLines] at hread
  | succ n ih =>
    unfold readLines at hread ⊢
    split at hread
    · exact hread
    · exact ih hread
    · exact ih hread
    · split at hread
      · simp at hread
      · exact ih hread
    · split at hread
      · simp at hread
      · next hheader =>
        simp only [readHeader_of_isWithin h hheader]
        split at hread
        · simp at hread
        · exact ih hread
    · split at hread
      · simp at hread
      · next hassignment =>
        simp only [readAssignment_of_isWithin h hassignment]
        split at hread
        · simp at hread
        · exact ih hread

/-! ### What the document stands for -/

lemma lookup?_itemEntries? (h : itemEntries? d its = some es) (k : String) :
    (lookup? k its).map (Item.value? d) = (lookup? k es).map some := by
  induction its generalizing es with
  | nil =>
    obtain rfl := Option.some.inj h
    rfl
  | cons e its ih =>
    obtain ⟨key, i⟩ := e
    rw [itemEntries?] at h
    split at h
    · next v vs hv hvs =>
      obtain rfl := Option.some.inj h
      by_cases hk : k = key
      · subst hk
        rw [lookup?_insert_self]
        simp [lookup?, hv]
      · rw [lookup?_insert_of_ne hk, ← ih hvs]
        simp [lookup?, Ne.symm hk]
    · simp at h

/-- An entry has the value of the item under its key. -/
lemma exists_item_of_lookup? (h : itemEntries? d its = some es) (hk : lookup? k es = some v) :
    ∃ i, lookup? k its = some i ∧ i.value? d = some v := by
  have hlookup := lookup?_itemEntries? h k
  rw [hk] at hlookup
  obtain ⟨i, hi, hvalue⟩ := Option.map_eq_some_iff.mp hlookup
  exact ⟨i, hi, hvalue⟩

/-- An item under a key gives the entry its value. -/
lemma exists_value_of_lookup? (h : itemEntries? d its = some es) (hk : lookup? k its = some i) :
    ∃ v, lookup? k es = some v ∧ i.value? d = some v := by
  have hlookup := lookup?_itemEntries? h k
  rw [hk] at hlookup
  obtain ⟨v, hv, hvalue⟩ := Option.map_eq_some_iff.mp hlookup.symm
  exact ⟨v, hv, hvalue.symm⟩

lemma tableValue?_eq_some (h : tableValue? d its (itemEntries? d its) = some v) :
    (d.spellsDates = true ∧ ∃ m, v = .moment m)
      ∨ ∃ es, itemEntries? d its = some es ∧ v = .table es := by
  have htable : (itemEntries? d its).map Value.table = some v →
      ∃ es, itemEntries? d its = some es ∧ v = .table es := by
    intro hv
    obtain ⟨es, hes, rfl⟩ := Option.map_eq_some_iff.mp hv
    exact ⟨es, hes, rfl⟩
  unfold tableValue? at h
  split at h
  · split at h
    · next hdate =>
      obtain ⟨m, -, rfl⟩ := Option.map_eq_some_iff.mp h
      exact .inl ⟨hdate.1, m, rfl⟩
    · exact .inr (htable h)
  · exact .inr (htable h)

lemma tableValue?_ne_string {s : String} :
    tableValue? d its (itemEntries? d its) ≠ some (.string s) := by
  intro h
  rcases tableValue?_eq_some h with ⟨-, m, hm⟩ | ⟨es, -, hes⟩
  · simp at hm
  · simp at hes

lemma Item.value?_value (v : Value) : (Item.value v).value? d = some v := by rw [Item.value?]

/-- Only a string stands for a string, whoever reads it. -/
lemma Item.eq_of_value?_string {s : String} (h : i.value? d = some (.string s)) :
    i = .value (.string s) := by
  cases i with
  | value v =>
    rw [value?_value] at h
    rw [Option.some.inj h]
  | array is => simp [Item.value?] at h
  | tables ts => simp [Item.value?] at h
  | inline dotted its => exact absurd h tableValue?_ne_string
  | table o its => exact absurd h tableValue?_ne_string

lemma itemValues?_cons {vs : List Value} (h : itemValues? d is = some (v :: vs)) :
    ∃ i is', is = i :: is' ∧ i.value? d = some v := by
  cases is with
  | nil => simp [itemValues?] at h
  | cons i is =>
    rw [itemValues?] at h
    split at h
    · next w ws hi _ =>
      obtain ⟨rfl, -⟩ := List.cons.inj (Option.some.inj h)
      exact ⟨i, is, rfl, hi⟩
    · simp at h

lemma exists_cons_of_itemValues? {vs : List Value} (h : itemValues? d (i :: is) = some vs)
    (hi : i.value? d = some v) : ∃ vs', vs = v :: vs' := by
  rw [itemValues?, hi] at h
  split at h
  · next w ws hw _ =>
    obtain rfl := Option.some.inj hw
    exact ⟨ws, (Option.some.inj h).symm⟩
  · simp at h

lemma tableValues?_cons {ts : List Items} {vs : List Value}
    (h : tableValues? d ts = some (v :: vs)) :
    ∃ its, tableValue? d its (itemEntries? d its) = some v := by
  cases ts with
  | nil => simp [tableValues?] at h
  | cons its ts =>
    rw [tableValues?] at h
    split at h
    · next w ws hw _ =>
      obtain ⟨rfl, -⟩ := List.cons.inj (Option.some.inj h)
      exact ⟨its, hw⟩
    · simp at h

end DeployClient.Toml

namespace DeployClient.Settings

open Toml (Dialect Item Items Value Entries itemEntries? tableValue?)

variable {d d' : Dialect} {i : Item} {its : Items} {v w : Value} {es es' : Entries} {level : Level}

lemma loggingLevel?_of_tableValue? (hdates : d.spellsDates = false)
    (hv : tableValue? d its (itemEntries? d its) = some v)
    (hw : tableValue? d' its (itemEntries? d' its) = some w) (hmoment : ∀ m, w ≠ .moment m)
    (h : loggingLevel? (some v) = some level) : loggingLevel? (some w) = some level := by
  obtain ⟨es, hes, rfl⟩ := (Toml.tableValue?_eq_some hv).resolve_left (by simp [hdates])
  obtain ⟨es', hes', rfl⟩ := (Toml.tableValue?_eq_some hw).resolve_left
    (fun ⟨_, m, hm⟩ => hmoment m hm)
  rw [loggingLevel?] at h ⊢
  split at h
  · next s hs =>
    obtain ⟨i, hi, hvalue⟩ := Toml.exists_item_of_lookup? hes hs
    obtain rfl := Item.eq_of_value?_string hvalue
    obtain ⟨w, hw, hvalue'⟩ := Toml.exists_value_of_lookup? hes' hi
    rw [Item.value?_value] at hvalue'
    rw [hw, ← Option.some.inj hvalue']
    exact h
  · simp at h

lemma exists_string_of_loggingLevel? {vs : List Value}
    (h : loggingLevel? (some (.array vs)) = some level) :
    ∃ s rest, vs = .string s :: rest ∧ levelOf? s = some level := by
  rw [loggingLevel?.eq_def] at h
  split at h
  · next heq => simp at heq
  · next heq => simp at heq
  · next s rest heq =>
    obtain rfl := Value.array.inj (Option.some.inj heq)
    exact ⟨s, rest, rfl, h⟩
  · simp at h

/-- Two readers find the same level in an item, if the second one takes it for no date. -/
lemma loggingLevel?_of_value? (hdates : d.spellsDates = false) (hv : i.value? d = some v)
    (hw : i.value? d' = some w) (hmoment : ∀ m, w ≠ .moment m)
    (h : loggingLevel? (some v) = some level) : loggingLevel? (some w) = some level := by
  cases i with
  | value u =>
    rw [Item.value?_value] at hv hw
    obtain rfl := Option.some.inj hv
    obtain rfl := Option.some.inj hw
    exact h
  | inline dotted its => exact loggingLevel?_of_tableValue? hdates hv hw hmoment h
  | table o its => exact loggingLevel?_of_tableValue? hdates hv hw hmoment h
  | array is =>
    rw [Item.value?] at hv hw
    obtain ⟨vs, hvs, rfl⟩ := Option.map_eq_some_iff.mp hv
    obtain ⟨ws, hws, rfl⟩ := Option.map_eq_some_iff.mp hw
    obtain ⟨s, rest, rfl, hs⟩ := exists_string_of_loggingLevel? h
    obtain ⟨i, is, rfl, hi⟩ := Toml.itemValues?_cons hvs
    obtain rfl := Item.eq_of_value?_string hi
    obtain ⟨ws', rfl⟩ := Toml.exists_cons_of_itemValues? hws (Item.value?_value _)
    exact hs
  | tables ts =>
    rw [Item.value?] at hv
    obtain ⟨vs, hvs, rfl⟩ := Option.map_eq_some_iff.mp hv
    obtain ⟨s, rest, rfl, -⟩ := exists_string_of_loggingLevel? h
    obtain ⟨its, hits⟩ := Toml.tableValues?_cons hvs
    exact absurd hits Toml.tableValue?_ne_string

/-- **The level that a stricter reader finds is the one that a laxer reader finds.** -/
theorem loggingLevel?_of_read? {text : String} (h : d.IsWithin d') (hdates : d.spellsDates = false)
    (hes : Toml.read? d text = some es) (hes' : Toml.read? d' text = some es')
    (hmoment : ∀ m, Toml.lookup? "logging" es' ≠ some (.moment m))
    (hlevel : loggingLevel? (Toml.lookup? "logging" es) = some level) :
    loggingLevel? (Toml.lookup? "logging" es') = some level := by
  obtain ⟨doc, hdoc, hes⟩ := Option.bind_eq_some_iff.mp hes
  obtain ⟨doc', hdoc', hes'⟩ := Option.bind_eq_some_iff.mp hes'
  obtain rfl := Option.some.inj ((Toml.readLines_of_isWithin h hdoc).symm.trans hdoc')
  cases hv : Toml.lookup? "logging" es with
  | none =>
    cases hw : Toml.lookup? "logging" es' with
    | none => rwa [hv] at hlevel
    | some w =>
      obtain ⟨i, hi, -⟩ := Toml.exists_item_of_lookup? hes' hw
      obtain ⟨v, hv', -⟩ := Toml.exists_value_of_lookup? hes hi
      simp [hv] at hv'
  | some v =>
    obtain ⟨i, hi, hvalue⟩ := Toml.exists_item_of_lookup? hes hv
    obtain ⟨w, hw, hvalue'⟩ := Toml.exists_value_of_lookup? hes' hi
    have hdate : ∀ m, w ≠ .moment m := by
      rintro m rfl
      exact hmoment m hw
    rw [hv] at hlevel
    rw [hw]
    exact loggingLevel?_of_value? hdates hvalue hvalue' hdate hlevel

end DeployClient.Settings
