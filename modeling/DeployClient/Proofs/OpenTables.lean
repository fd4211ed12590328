import DeployClient.Proofs.SortedEntries
import DeployClient.Toml.Document

/-!
The document while it is read.

The table that is open stands last among its neighbours, and so does each table on the way to it.
So the document is the open table inside of some frames, and headers and keys change what is
inside of them.
-/

namespace DeployClient.Toml

/-- A table on the way to the open one, without what is open in it. -/
inductive Frame where
  | table (before : Items) (key : String) (implicit : Bool)
  | element (before : Items) (key : String) (elements : List Items)

namespace Frame

def key : Frame → String
  | .table _ k _ => k
  | .element _ k _ => k

def before : Frame → Items
  | .table es _ _ => es
  | .element es _ _ => es

def origin : Frame → Origin
  | .table _ _ implicit => ⟨implicit, false⟩
  | .element .. => ⟨false, false⟩

lemma origin_dotted (f : Frame) : f.origin.dotted = false := by cases f <;> rfl

/-- Puts in a table that came into being in this way. -/
def closeAs : Frame → Origin → Items → Items
  | .table es k _, o, inner => es ++ [(k, .table o inner)]
  | .element es k ts, _, inner => es ++ [(k, .tables (ts ++ [inner]))]

/-- Puts in what is open. -/
def close (f : Frame) (inner : Items) : Items := f.closeAs f.origin inner

/-- The key stands only once among its neighbours. -/
def Fresh (f : Frame) : Prop := f.key ∉ f.before.map Prod.fst

end Frame

/-- The items of a document in which `inner` is open. -/
def fill (frames : List Frame) (inner : Items) : Items := frames.foldr Frame.close inner

/-- The path of the table that is open. -/
def pathOf (frames : List Frame) : List String := frames.map Frame.key

variable {frames : List Frame} {f : Frame} {inner inner' : Items} {change : Change} {o : Origin}
  {k : String} {ks path : List String} {i : Item} {ts : List Items}

@[simp] lemma fill_nil (inner : Items) : fill [] inner = inner := rfl

@[simp] lemma fill_cons (f : Frame) (frames : List Frame) (inner : Items) :
    fill (f :: frames) inner = f.close (fill frames inner) := rfl

lemma fill_concat (frames : List Frame) (f : Frame) (inner : Items) :
    fill (frames ++ [f]) inner = fill frames (f.close inner) := by
  simp [fill, List.foldr_append]

@[simp] lemma pathOf_nil : pathOf [] = [] := rfl

@[simp] lemma pathOf_cons (f : Frame) (frames : List Frame) :
    pathOf (f :: frames) = f.key :: pathOf frames := rfl

lemma pathOf_concat (frames : List Frame) (f : Frame) :
    pathOf (frames ++ [f]) = pathOf frames ++ [f.key] := by simp [pathOf]

@[simp] lemma length_pathOf (frames : List Frame) : (pathOf frames).length = frames.length :=
  List.length_map _

lemma fresh_concat (h : ∀ g ∈ frames, g.Fresh) (hf : f.Fresh) : ∀ g ∈ frames ++ [f], g.Fresh := by
  intro g hg
  rcases List.mem_append.mp hg with hg | hg
  · exact h g hg
  · exact List.mem_singleton.mp hg ▸ hf

/-! ### Going down -/

/-- Going down through a frame. -/
lemma descend_close (hf : f.Fresh) (change : Change) (ks : List String) (o : Origin)
    (inner : Items) : descend false change (f.key :: ks) o (f.close inner)
      = (descend false change ks f.origin inner).map fun t => (o, f.closeAs t.1 t.2) := by
  cases f with
  | table es k implicit =>
    have hlookup : lookup? k (es ++ [(k, Item.table ⟨implicit, false⟩ inner)])
        = some (.table ⟨implicit, false⟩ inner) := lookup?_concat hf
    have hput : ∀ w : Item, put k w (es ++ [(k, Item.table ⟨implicit, false⟩ inner)])
        = es ++ [(k, w)] := fun w => put_concat hf
    simp only [Frame.key, Frame.close, Frame.closeAs, Frame.origin, descend, hlookup, hput,
      Bool.false_eq_true, false_and, if_false]
  | element es k ts =>
    have hlookup : lookup? k (es ++ [(k, Item.tables (ts ++ [inner]))])
        = some (.tables (ts ++ [inner])) := lookup?_concat hf
    have hput : ∀ w : Item, put k w (es ++ [(k, Item.tables (ts ++ [inner]))])
        = es ++ [(k, w)] := fun w => put_concat hf
    simp only [Frame.key, Frame.close, Frame.closeAs, Frame.origin, descend, hlookup, hput,
      List.getLastD_concat, List.dropLast_concat]

/-- **A change of the open table changes the document there.** -/
lemma descend_fill (hfresh : ∀ f ∈ frames, f.Fresh) (ho : o.dotted = false)
    (h : ∀ o : Origin, o.dotted = false → change o inner = some (o, inner')) :
    descend false change (pathOf frames) o (fill frames inner) = some (o, fill frames inner') := by
  induction frames generalizing o with
  | nil => exact h o ho
  | cons f frames ih =>
    obtain ⟨hf, hframes⟩ := List.forall_mem_cons.mp hfresh
    rw [pathOf_cons, fill_cons, descend_close hf, ih hframes f.origin_dotted]
    rfl

/-- What a change further down makes of the document depends on what it makes of the open table. -/
lemma descend_congr (hfresh : ∀ f ∈ frames, f.Fresh)
    (h : ∀ o, descend false change ks o inner = descend false change ks o inner') :
    descend false change (pathOf frames ++ ks) o (fill frames inner)
      = descend false change (pathOf frames ++ ks) o (fill frames inner') := by
  induction frames generalizing o with
  | nil => exact h o
  | cons f frames ih =>
    obtain ⟨hf, hframes⟩ := List.forall_mem_cons.mp hfresh
    rw [pathOf_cons, fill_cons, fill_cons, List.cons_append, descend_close hf, descend_close hf,
      ih hframes]

/-- A table that is missing on the way is made as if it had been there without items. -/
lemma descend_missing (hk : k ∉ inner.map Prod.fst) :
    descend false change (k :: ks) o inner
      = descend false change (k :: ks) o (inner ++ [(k, .table ⟨true, false⟩ [])]) := by
  have hput : ∀ w : Item, put k w (inner ++ [(k, Item.table ⟨true, false⟩ [])])
      = inner ++ [(k, w)] := fun w => put_concat hk
  have hlookup : lookup? k (inner ++ [(k, Item.table ⟨true, false⟩ [])])
      = some (.table ⟨true, false⟩ []) := lookup?_concat hk
  simp only [descend, lookup?_eq_none hk, hlookup, put_of_notMem hk, hput, Bool.false_eq_true,
    false_and, if_false]

/-! ### Headers and keys -/

lemma header_concat (doc : Document) (change : String → Change) (path : List String) (k : String) :
    doc.header change (path ++ [k])
      = (descend false (change k) path Document.rootOrigin doc.items).map
          fun t => ⟨t.2, path ++ [k]⟩ := by
  rw [Document.header, List.getLast?_concat, List.dropLast_concat]

/-- A header of a new table opens it. -/
lemma header_openTable (hfresh : ∀ f ∈ frames, f.Fresh) (hk : k ∉ inner.map Prod.fst)
    (path : List String) :
    (Document.mk (fill frames inner) path).header openTable (pathOf frames ++ [k])
      = some ⟨fill (frames ++ [.table inner k false]) [],
          pathOf (frames ++ [.table inner k false])⟩ := by
  have hnone : ∀ e ∈ inner, e.1 ≠ k := fun e he heq => hk (List.mem_map.mpr ⟨e, he, heq⟩)
  have hlast : putLast k (.table ⟨false, false⟩ []) inner
      = inner ++ [(k, .table ⟨false, false⟩ [])] := by
    rw [putLast, List.filter_eq_self.mpr fun e he => by simpa using hnone e he]
  have hopen : ∀ o : Origin, o.dotted = false →
      openTable k o inner = some (o, inner ++ [(k, .table ⟨false, false⟩ [])]) := by
    intro o _
    rw [openTable, lookup?_eq_none hk, hlast]
  rw [header_concat, descend_fill hfresh rfl hopen, fill_concat, pathOf_concat]
  rfl

/-- The items with an array of tables at the end, if it has any. -/
def withElements (inner : Items) (k : String) (ts : List Items) : Items :=
  if ts = [] then inner else inner ++ [(k, .tables ts)]

/-- A header of an array of tables opens a further element. -/
lemma header_openElement (hfresh : ∀ f ∈ frames, f.Fresh) (hk : k ∉ inner.map Prod.fst)
    (ts : List Items) (path : List String) :
    (Document.mk (fill frames (withElements inner k ts)) path).header openElement
        (pathOf frames ++ [k])
      = some ⟨fill (frames ++ [.element inner k ts]) [],
          pathOf (frames ++ [.element inner k ts])⟩ := by
  have hopen : ∀ o : Origin, o.dotted = false → openElement k o (withElements inner k ts)
      = some (o, inner ++ [(k, .tables (ts ++ [[]]))]) := by
    intro o _
    unfold withElements
    split_ifs with hts
    · rw [openElement, lookup?_eq_none hk, put_of_notMem hk, hts]
      rfl
    · have hlookup : lookup? k (inner ++ [(k, Item.tables ts)]) = some (.tables ts) :=
        lookup?_concat hk
      have hput : put k (Item.tables (ts ++ [[]])) (inner ++ [(k, Item.tables ts)])
          = inner ++ [(k, .tables (ts ++ [[]]))] := put_concat hk
      simp only [openElement, hlookup, hput]
  rw [header_concat, descend_fill hfresh rfl hopen, fill_concat, pathOf_concat]
  rfl

/-- A new key puts its item into the open table. -/
lemma assign_fill (hfresh : ∀ f ∈ frames, f.Fresh) (hk : k ∉ inner.map Prod.fst) (i : Item) :
    (Document.mk (fill frames inner) (pathOf frames)).assign [k] i
      = some ⟨fill frames (inner ++ [(k, i)]), pathOf frames⟩ := by
  have hput : ∀ o : Origin, o.dotted = false →
      descend true (putNew true k i) [] o inner = some (o, inner ++ [(k, i)]) := by
    intro o ho
    rw [descend, putNew, if_neg (by simp [ho]), lookup?_eq_none hk, put_of_notMem hk]
    rfl
  show (descend false (fun o es => descend true (putNew true k i) [] o es) (pathOf frames)
    Document.rootOrigin (fill frames inner)).map _ = _
  rw [descend_fill hfresh rfl hput]
  rfl

/-! ### Documents that are alike for headers -/

/-- Headers below the open table find the document as if `inner` was open in these frames. A table
on the way may be missing if it has no items yet. -/
def Document.IsOpen (doc : Document) (frames : List Frame) (inner : Items) : Prop :=
  ∀ (change : String → Change) (ks : List String) (k : String),
    doc.header change (pathOf frames ++ ks ++ [k])
      = (Document.mk (fill frames inner) []).header change (pathOf frames ++ ks ++ [k])

lemma Document.IsOpen.of_items {doc : Document} (h : doc.items = fill frames inner) :
    doc.IsOpen frames inner := by
  intro change ks k
  rw [header_concat, header_concat, h]

/-- A table that is missing may be thought to be open. -/
lemma Document.IsOpen.missing {doc : Document} (h : doc.IsOpen frames inner)
    (hfresh : ∀ f ∈ frames, f.Fresh) (hk : k ∉ inner.map Prod.fst) :
    doc.IsOpen (frames ++ [.table inner k true]) [] := by
  intro change ks key
  have hpath : pathOf (frames ++ [.table inner k true]) ++ ks ++ [key]
      = pathOf frames ++ (k :: ks) ++ [key] := by simp [pathOf_concat, Frame.key]
  rw [hpath, h, header_concat, header_concat, fill_concat,
    descend_congr hfresh fun o => descend_missing hk]
  rfl

end DeployClient.Toml
