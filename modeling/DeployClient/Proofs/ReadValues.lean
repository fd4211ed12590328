import DeployClient.Proofs.Legible
import DeployClient.Toml.Reader

/-!
What reading a file gives.

Items are put together from values without brackets, whose integers fit into 64 bits. However a
table came into being, its entries are put in the order of their keys when it becomes a value.
-/

namespace DeployClient.Toml

variable {d : Dialect} {n depth : Nat} {v : Value} {vs : List Value} {es : Entries}
  {its its' : Items} {i : Item} {is : List Item} {ts : List Items} {k : String}
  {ks : List String} {o o' : Origin} {cs rest : List Char} {change : Change} {doc doc' : Document}

/-- An item from which no other values can come than reading gives. -/
inductive Item.Orderly : Item → Prop
  | value {v : Value} (h : v.Orderly) : Orderly (.value v)
  | array {is : List Item} (h : ∀ i ∈ is, Orderly i) : Orderly (.array is)
  | inline {dotted : Bool} {es : Items} (h : ∀ e ∈ es, Orderly e.2) : Orderly (.inline dotted es)
  | table {o : Origin} {es : Items} (h : ∀ e ∈ es, Orderly e.2) : Orderly (.table o es)
  | tables {ts : List Items} (h : ∀ es ∈ ts, ∀ e ∈ es, Orderly e.2) : Orderly (.tables ts)

def AreOrderly (its : Items) : Prop := ∀ e ∈ its, e.2.Orderly

/-! ### From items to values -/

lemma exists_of_mem_itemValues? (h : itemValues? d is = some vs) (hv : v ∈ vs) :
    ∃ i ∈ is, i.value? d = some v := by
  induction is generalizing vs with
  | nil =>
    obtain rfl := Option.some.inj h
    simp at hv
  | cons i is ih =>
    rw [itemValues?] at h
    split at h
    · next w ws hi his =>
      obtain rfl := Option.some.inj h
      rcases List.mem_cons.mp hv with rfl | hv
      · exact ⟨i, List.mem_cons_self, hi⟩
      · obtain ⟨j, hj, hvalue⟩ := ih his hv
        exact ⟨j, List.mem_cons_of_mem _ hj, hvalue⟩
    · simp at h

lemma exists_of_mem_tableValues? (h : tableValues? d ts = some vs) (hv : v ∈ vs) :
    ∃ its ∈ ts, tableValue? d its (itemEntries? d its) = some v := by
  induction ts generalizing vs with
  | nil =>
    obtain rfl := Option.some.inj h
    simp at hv
  | cons its ts ih =>
    rw [tableValues?] at h
    split at h
    · next w ws hits hts =>
      obtain rfl := Option.some.inj h
      rcases List.mem_cons.mp hv with rfl | hv
      · exact ⟨its, List.mem_cons_self, hits⟩
      · obtain ⟨j, hj, hvalue⟩ := ih hts hv
        exact ⟨j, List.mem_cons_of_mem _ hj, hvalue⟩
    · simp at h

lemma itemEntries?_spec (h : itemEntries? d its = some es) :
    Sorted es ∧ ∀ e ∈ es, ∃ i ∈ its, i.2.value? d = some e.2 := by
  induction its generalizing es with
  | nil =>
    obtain rfl := Option.some.inj h
    exact ⟨List.Pairwise.nil, by simp⟩
  | cons j its ih =>
    rw [itemEntries?] at h
    split at h
    · next w ws hj hits =>
      obtain rfl := Option.some.inj h
      obtain ⟨hsorted, hmem⟩ := ih hits
      refine ⟨sorted_insert hsorted, fun e he => ?_⟩
      rcases mem_insert he with rfl | he
      · exact ⟨j, List.mem_cons_self, hj⟩
      · obtain ⟨i, hi, hvalue⟩ := hmem e he
        exact ⟨i, List.mem_cons_of_mem _ hi, hvalue⟩
    · simp at h

lemma orderly_of_tableValue? (ih : ∀ e ∈ its, ∀ v, e.2.value? d = some v → v.Orderly)
    (h : tableValue? d its (itemEntries? d its) = some v) : v.Orderly := by
  have htable : ∀ w, (itemEntries? d its).map Value.table = some w → w.Orderly := by
    intro w hw
    obtain ⟨es, hes, rfl⟩ := Option.map_eq_some_iff.mp hw
    obtain ⟨hsorted, hmem⟩ := itemEntries?_spec hes
    refine .table hsorted fun e he => ?_
    obtain ⟨i, hi, hvalue⟩ := hmem e he
    exact ih i hi e.2 hvalue
  unfold tableValue? at h
  split at h
  · split at h
    · obtain ⟨m, -, rfl⟩ := Option.map_eq_some_iff.mp h
      exact .moment m
    · exact htable v h
  · exact htable v h

lemma Item.Orderly.orderly (hi : i.Orderly) (h : i.value? d = some v) : v.Orderly := by
  induction hi generalizing v with
  | value hv =>
    rw [Item.value?] at h
    exact Option.some.inj h ▸ hv
  | array _ ih =>
    rw [Item.value?] at h
    obtain ⟨vs, hvs, rfl⟩ := Option.map_eq_some_iff.mp h
    refine .array fun v hv => ?_
    obtain ⟨i, hi, hvalue⟩ := exists_of_mem_itemValues? hvs hv
    exact ih i hi hvalue
  | inline _ ih =>
    rw [Item.value?] at h
    exact orderly_of_tableValue? (fun e he v hv => ih e he hv) h
  | table _ ih =>
    rw [Item.value?] at h
    exact orderly_of_tableValue? (fun e he v hv => ih e he hv) h
  | tables _ ih =>
    rw [Item.value?] at h
    obtain ⟨vs, hvs, rfl⟩ := Option.map_eq_some_iff.mp h
    refine .array fun v hv => ?_
    obtain ⟨its, hits, hvalue⟩ := exists_of_mem_tableValues? hvs hv
    exact orderly_of_tableValue? (fun e he v hv => ih its hits e he hv) hvalue

/-! ### Values without brackets -/

lemma inRange?_eq {a b : Int} (h : inRange? a = some b) : inRange? b = some b := by
  unfold inRange? at h
  split at h
  · next hrange =>
    obtain rfl := Option.some.inj h
    rw [inRange?, if_pos hrange]
  · simp at h

lemma inRange?_of_integer? {a : Int} (h : integer? cs = some a) : inRange? a = some a := by
  unfold integer? at h
  split at h
  all_goals
    obtain ⟨ds, -, hrange⟩ := Option.bind_eq_some_iff.mp h
    exact inRange?_eq hrange

lemma orderly_of_tokenValue? (h : tokenValue? cs = some v) : v.Orderly := by
  unfold tokenValue? at h
  split at h
  · obtain rfl := Option.some.inj h
    exact .moment _
  · split at h
    · next hi =>
      obtain rfl := Option.some.inj h
      exact .integer (inRange?_of_integer? hi)
    · obtain ⟨f, -, rfl⟩ := Option.map_eq_some_iff.mp h
      exact .float f

lemma orderly_of_readToken (h : readToken cs = some (v, rest)) : v.Orderly := by
  unfold readToken at h
  simp only at h
  split at h
  · split at h
    all_goals
      obtain ⟨rfl, -⟩ := Prod.mk.inj (Option.some.inj h)
      exact .moment _
  · next hv _ =>
    obtain ⟨rfl, -⟩ := Prod.mk.inj (Option.some.inj h)
    exact orderly_of_tokenValue? hv
  · simp at h

lemma orderly_of_readScalar (h : readScalar cs = some (v, rest)) : v.Orderly := by
  unfold readScalar at h
  split at h
  · simp at h
  · split_ifs at h
    · obtain ⟨p, -, hp⟩ := Option.map_eq_some_iff.mp h
      obtain ⟨rfl, -⟩ := Prod.mk.inj hp
      exact .string _
    · obtain ⟨p, -, hp⟩ := Option.map_eq_some_iff.mp h
      obtain ⟨rfl, -⟩ := Prod.mk.inj hp
      exact .boolean _
    · obtain ⟨p, -, hp⟩ := Option.map_eq_some_iff.mp h
      obtain ⟨rfl, -⟩ := Prod.mk.inj hp
      exact .boolean _
    · exact orderly_of_readToken h

/-! ### Putting items in -/

lemma AreOrderly.put (h : AreOrderly its) (hi : i.Orderly) : AreOrderly (put k i its) := by
  induction its with
  | nil => simpa [AreOrderly, Toml.put] using hi
  | cons e its ih =>
    obtain ⟨he, hits⟩ := List.forall_mem_cons.mp h
    rw [Toml.put]
    split
    · exact List.forall_mem_cons.mpr ⟨hi, hits⟩
    · exact List.forall_mem_cons.mpr ⟨he, ih hits⟩

lemma AreOrderly.assignInline (h : AreOrderly its) (hi : i.Orderly)
    (hput : assignInline d i ks its = some its') : AreOrderly its' := by
  induction ks generalizing its its' with
  | nil => simp [Toml.assignInline] at hput
  | cons k ks ih =>
    cases ks with
    | nil =>
      rw [Toml.assignInline] at hput
      split at hput
      · simp at hput
      · exact Option.some.inj hput ▸ h.put hi
    | cons l ks =>
      rw [Toml.assignInline.eq_def] at hput
      simp only at hput
      split at hput
      · obtain ⟨t, ht, rfl⟩ := Option.map_eq_some_iff.mp hput
        exact h.put (.inline (ih (by simp [AreOrderly]) ht))
      · next dotted inner hinner =>
        split at hput
        · obtain ⟨t, ht, rfl⟩ := Option.map_eq_some_iff.mp hput
          have horderly : AreOrderly inner := by
            cases h _ (mem_of_lookup? hinner) with
            | inline h => exact h
          exact h.put (.inline (ih horderly ht))
        · simp at hput
      · simp at hput

lemma orderly_of_inlineTable? {pairs : List (List String × Item)} (h : ∀ p ∈ pairs, p.2.Orderly)
    (hi : inlineTable? d pairs = some i) : i.Orderly := by
  obtain ⟨its, hits, rfl⟩ := Option.map_eq_some_iff.mp hi
  have hrun : ∀ start : Items, AreOrderly start →
      pairs.foldlM (fun es p => assignInline d p.2 p.1 es) start = some its → AreOrderly its := by
    clear hits hi
    induction pairs with
    | nil =>
      rintro start hstart hits
      obtain rfl := Option.some.inj hits
      exact hstart
    | cons p pairs ih =>
      rintro start hstart hits
      rw [List.foldlM_cons] at hits
      obtain ⟨next, hnext, hits⟩ := Option.bind_eq_some_iff.mp hits
      exact ih (fun q hq => h q (List.mem_cons_of_mem _ hq)) next
        (hstart.assignInline (h p List.mem_cons_self) hnext) hits
  exact .inline (hrun [] (by simp [AreOrderly]) hits)

/-! ### Changing a document -/

/-- A change that puts nothing but orderly items in. -/
def Change.Keeps (change : Change) : Prop :=
  ∀ o its o' its', AreOrderly its → change o its = some (o', its') → AreOrderly its'

lemma areOrderly_getLastD (h : ∀ its ∈ ts, AreOrderly its) : AreOrderly (ts.getLastD []) := by
  rcases List.eq_nil_or_concat' ts with rfl | ⟨front, last, rfl⟩
  · simp [AreOrderly]
  · rw [List.getLastD_concat]
    exact h last (by simp)

lemma orderly_of_lookup? (h : AreOrderly its) (hk : lookup? k its = some i) : i.Orderly :=
  h _ (mem_of_lookup? hk)

lemma keeps_descend (dotted : Bool) (h : change.Keeps) :
    (descend dotted change ks : Change).Keeps := by
  induction ks with
  | nil =>
    intro o its o' its' hits hgo
    exact h o its o' its' hits hgo
  | cons k ks ih =>
    intro o its o' its' hits hgo
    rw [descend] at hgo
    split at hgo
    · obtain ⟨t, ht, hgo⟩ := Option.map_eq_some_iff.mp hgo
      obtain ⟨-, rfl⟩ := Prod.mk.inj hgo
      exact hits.put (.table (ih _ _ _ _ (by simp [AreOrderly]) ht))
    · next hk =>
      split at hgo
      · simp at hgo
      · obtain ⟨t, ht, hgo⟩ := Option.map_eq_some_iff.mp hgo
        obtain ⟨-, rfl⟩ := Prod.mk.inj hgo
        cases orderly_of_lookup? hits hk with
        | table hinner => exact hits.put (.table (ih _ _ _ _ hinner ht))
    · next ts hk =>
      obtain ⟨t, ht, hgo⟩ := Option.map_eq_some_iff.mp hgo
      obtain ⟨-, rfl⟩ := Prod.mk.inj hgo
      cases orderly_of_lookup? hits hk with
      | tables hts =>
        have hlast := ih _ _ _ _ (areOrderly_getLastD hts) ht
        refine hits.put (.tables fun its hmem => ?_)
        rcases List.mem_append.mp hmem with hmem | hmem
        · exact hts its ((List.dropLast_sublist ts).subset hmem)
        · exact List.mem_singleton.mp hmem ▸ hlast
    · simp at hgo

lemma AreOrderly.putLast (h : AreOrderly its) (hi : i.Orderly) : AreOrderly (putLast k i its) := by
  intro e he
  rcases List.mem_append.mp he with he | he
  · exact h e (List.mem_filter.mp he).1
  · exact List.mem_singleton.mp he ▸ hi

lemma keeps_openTable (k : String) : (openTable k).Keeps := by
  intro o its o' its' hits hgo
  unfold openTable at hgo
  split at hgo
  · obtain ⟨-, rfl⟩ := Prod.mk.inj (Option.some.inj hgo)
    exact hits.putLast (.table (by simp))
  · next hk =>
    split at hgo
    · obtain ⟨-, rfl⟩ := Prod.mk.inj (Option.some.inj hgo)
      cases orderly_of_lookup? hits hk with
      | table hinner => exact hits.putLast (.table hinner)
    · simp at hgo
  · simp at hgo

lemma keeps_openElement (k : String) : (openElement k).Keeps := by
  intro o its o' its' hits hgo
  unfold openElement at hgo
  split at hgo
  · obtain ⟨-, rfl⟩ := Prod.mk.inj (Option.some.inj hgo)
    exact hits.put (.tables (by simp))
  · next hk =>
    obtain ⟨-, rfl⟩ := Prod.mk.inj (Option.some.inj hgo)
    cases orderly_of_lookup? hits hk with
    | tables hts =>
      refine hits.put (.tables fun its hmem => ?_)
      rcases List.mem_append.mp hmem with hmem | hmem
      · exact hts its hmem
      · simp [List.mem_singleton.mp hmem]
  · simp at hgo

lemma keeps_putNew (plain : Bool) (k : String) (hi : i.Orderly) : (putNew plain k i).Keeps := by
  intro o its o' its' hits hgo
  unfold putNew at hgo
  split_ifs at hgo
  obtain ⟨-, rfl⟩ := Prod.mk.inj (Option.some.inj hgo)
  exact hits.put hi

lemma orderly_header {change : String → Change} (hchange : ∀ k, (change k).Keeps)
    (h : AreOrderly doc.items) (hgo : doc.header change ks = some doc') :
    AreOrderly doc'.items := by
  unfold Document.header at hgo
  split at hgo
  · simp at hgo
  · next k _ =>
    obtain ⟨t, ht, rfl⟩ := Option.map_eq_some_iff.mp hgo
    exact keeps_descend false (hchange k) _ _ _ _ h ht

lemma orderly_assign (hi : i.Orderly) (h : AreOrderly doc.items)
    (hgo : doc.assign ks i = some doc') : AreOrderly doc'.items := by
  unfold Document.assign at hgo
  split at hgo
  · simp at hgo
  · next k _ =>
    obtain ⟨t, ht, rfl⟩ := Option.map_eq_some_iff.mp hgo
    have hinner : Change.Keeps fun o es =>
        descend true (putNew (decide (ks.length = 1)) k i) ks.dropLast o es :=
      keeps_descend true (keeps_putNew _ k hi)
    exact keeps_descend false hinner _ _ _ _ h ht

/-! ### Reading -/

/-- What the readers give with so many steps. -/
structure ReadsOrderly (d : Dialect) (n : Nat) : Prop where
  item : ∀ depth cs i rest, readItem d n depth cs = some (i, rest) → i.Orderly
  elements : ∀ depth cs is rest, readElements d n depth cs = some (is, rest) →
    ∀ i ∈ is, i.Orderly
  pairs : ∀ depth cs ps rest, readPairs d n depth cs = some (ps, rest) →
    ∀ p ∈ ps, p.2.Orderly

/-- Each step gives orderly items if the steps that are left do. -/
lemma readsOrderly (d : Dialect) (n : Nat) : ReadsOrderly d n := by
  induction n with
  | zero => constructor <;> intro _ _ _ _ h <;> simp [readItem, readElements, readPairs] at h
  | succ n ih =>
    constructor
    · intro depth cs i rest h
      unfold readItem at h
      split at h
      · split at h
        · obtain ⟨p, hp, hi⟩ := Option.map_eq_some_iff.mp h
          obtain ⟨rfl, -⟩ := Prod.mk.inj hi
          exact .array (ih.elements _ _ _ _ hp)
        · simp at h
      · split at h
        · split at h
          · obtain ⟨rfl, -⟩ := Prod.mk.inj (Option.some.inj h)
            exact .inline (by simp)
          · split at h
            · simp at h
            · next hpairs =>
              obtain ⟨j, hj, hi⟩ := Option.map_eq_some_iff.mp h
              obtain ⟨rfl, -⟩ := Prod.mk.inj hi
              exact orderly_of_inlineTable? (ih.pairs _ _ _ _ hpairs) hj
        · simp at h
      · obtain ⟨p, hp, hi⟩ := Option.map_eq_some_iff.mp h
        obtain ⟨rfl, -⟩ := Prod.mk.inj hi
        exact .value (orderly_of_readScalar hp)
    · intro depth cs is rest h
      unfold readElements at h
      split at h
      · simp at h
      · obtain ⟨rfl, -⟩ := Prod.mk.inj (Option.some.inj h)
        simp
      · split at h
        · simp at h
        · next hitem =>
          have hi := ih.item _ _ _ _ hitem
          split at h
          · obtain ⟨p, hp, his⟩ := Option.map_eq_some_iff.mp h
            obtain ⟨rfl, -⟩ := Prod.mk.inj his
            exact List.forall_mem_cons.mpr ⟨hi, ih.elements _ _ _ _ hp⟩
          · obtain ⟨rfl, -⟩ := Prod.mk.inj (Option.some.inj h)
            simpa using hi
          · simp at h
    · intro depth cs ps rest h
      unfold readPairs at h
      split at h
      · split at h
        · simp at h
        · next hitem =>
          have hi := ih.item _ _ _ _ hitem
          split at h
          · obtain ⟨p, hp, hps⟩ := Option.map_eq_some_iff.mp h
            obtain ⟨rfl, -⟩ := Prod.mk.inj hps
            exact List.forall_mem_cons.mpr ⟨hi, ih.pairs _ _ _ _ hp⟩
          · obtain ⟨rfl, -⟩ := Prod.mk.inj (Option.some.inj h)
            simpa using hi
          · simp at h
      · simp at h

lemma orderly_readHeader (h : AreOrderly doc.items)
    (hread : readHeader d n doc cs = some (doc', rest)) : AreOrderly doc'.items := by
  unfold readHeader at hread
  split at hread
  all_goals
    split at hread
    · obtain ⟨t, ht, hdoc⟩ := Option.map_eq_some_iff.mp hread
      obtain ⟨rfl, -⟩ := Prod.mk.inj hdoc
      first
        | exact orderly_header keeps_openElement h ht
        | exact orderly_header keeps_openTable h ht
    · simp at hread

lemma orderly_readAssignment (h : AreOrderly doc.items)
    (hread : readAssignment d n doc cs = some (doc', rest)) : AreOrderly doc'.items := by
  unfold readAssignment at hread
  split at hread
  · split at hread
    · simp at hread
    · next hitem =>
      obtain ⟨t, ht, hdoc⟩ := Option.map_eq_some_iff.mp hread
      obtain ⟨rfl, -⟩ := Prod.mk.inj hdoc
      exact orderly_assign ((readsOrderly d n).item _ _ _ _ hitem) h ht
  · simp at hread

lemma orderly_readLines (h : AreOrderly doc.items) (hread : readLines d n doc cs = some doc') :
    AreOrderly doc'.items := by
  induction n generalizing doc cs with
  | zero => simp [readLines] at hread
  | succ n ih =>
    unfold readLines at hread
    split at hread
    · exact Option.some.inj hread ▸ h
    · exact ih h hread
    · exact ih h hread
    · split at hread
      · simp at hread
      · exact ih h hread
    · split at hread
      · simp at hread
      · next hheader =>
        split at hread
        · simp at hread
        · exact ih (orderly_readHeader h hheader) hread
    · split at hread
      · simp at hread
      · next hassignment =>
        split at hread
        · simp at hread
        · exact ih (orderly_readAssignment h hassignment) hread

/-- **The entries that are read are in the order of their keys, at all depths.** -/
theorem orderly_of_read? {text : String} (h : read? d text = some es) :
    Sorted es ∧ ∀ e ∈ es, e.2.Orderly := by
  obtain ⟨doc, hdoc, hes⟩ := Option.bind_eq_some_iff.mp h
  have hitems : AreOrderly doc.items :=
    orderly_readLines (by simp [AreOrderly, Document.empty]) hdoc
  obtain ⟨hsorted, hmem⟩ := itemEntries?_spec hes
  refine ⟨hsorted, fun e he => ?_⟩
  obtain ⟨i, hi, hvalue⟩ := hmem e he
  exact (hitems i hi).orderly hvalue

end DeployClient.Toml
