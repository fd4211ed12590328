import DeployClient.Proofs.LineText
import DeployClient.Proofs.OpenTables

/-!
A whole file, written and read again.

Lines are read into the table that is open, and headers open the next one. A table that is written
without a header of its own is made when the first header below it is read.
-/

namespace DeployClient.Toml

variable {d : Dialect} {n : Nat} {doc doc' : Document} {text rest : List Char} {v : Value}
  {vs : List Value} {es l : Entries} {its inner : Items} {frames : List Frame} {k : String}
  {path more : List String} {P Q : Document → Prop}

/-! ### Parts of the text -/

/-- The headers that the entries of a table have below a path, with all that is below these. -/
def below (path : List String) (es : Entries) : List Char :=
  es.flatMap fun e => sections (path ++ [e.1]) e.2

/-- What stands under the header of a table. -/
def contents (path : List String) (es : Entries) : List Char :=
  bodyText (ranked es) ++ below path (ranked es)

lemma entrySections_eq (path : List String) (es : Entries) :
    entrySections path es = es.map fun e => (e.2.rank, sections (path ++ [e.1]) e.2) := by
  induction es with
  | nil => rfl
  | cons e es ih => rw [entrySections, ih, List.map_cons]

lemma inRankOrder_entrySections (path : List String) (es : Entries) :
    (inRankOrder (entrySections path es)).flatten = below path (ranked es) := by
  have heq : entrySections path es
      = (es.map fun e => (e.2.rank, e)).map fun p => (p.1, sections (path ++ [p.2.1]) p.2.2) := by
    rw [entrySections_eq, List.map_map]
    rfl
  rw [heq, inRankOrder_map (fun e : String × Value => sections (path ++ [e.1]) e.2), below, ranked,
    List.flatMap_def]

lemma sections_table (path : List String) (es : Entries) : sections path (.table es)
    = (if needsHeader es then headerText path else []) ++ contents path es := by
  rw [sections, inRankOrder_entrySections, contents, List.append_assoc]

lemma elementSections_cons (path : List String) (es : Entries) (vs : List Value) :
    elementSections path (.table es :: vs)
      = elementHeaderText path ++ (contents path es ++ elementSections path vs) := by
  rw [elementSections, inRankOrder_entrySections, contents]
  simp only [List.append_assoc]

lemma sections_of_isInline (h : v.isInline = true) : sections path v = [] := by
  cases v with
  | array vs =>
    have harray : (Value.array vs).isTableArray = false := by
      simpa [Value.isInline, Value.isTable] using h
    rw [sections, harray]
    rfl
  | table es => simp [Value.isInline, Value.isTable] at h
  | _ => rfl

lemma render_eq (es : Entries) : render es = String.ofList (bodyText es ++ below [] es) := by
  rw [render, entrySections_eq, List.flatMap_map]
  rfl

/-! ### Reading on -/

/-- Reading the text takes the document to one with the property, whatever follows. -/
def Reads (d : Dialect) (doc : Document) (text : List Char) (P : Document → Prop) : Prop :=
  ∀ n rest, text.length + rest.length < n →
    ∃ m doc', rest.length < m ∧ readLines d n doc (text ++ rest) = readLines d m doc' rest ∧ P doc'

namespace Reads

lemma nil (h : P doc) : Reads d doc [] P :=
  fun n rest hn => ⟨n, doc, by simpa using hn, rfl, h⟩

lemma mono (h : Reads d doc text P) (hPQ : ∀ doc, P doc → Q doc) : Reads d doc text Q := by
  intro n rest hn
  obtain ⟨m, doc', hm, hread, hP⟩ := h n rest hn
  exact ⟨m, doc', hm, hread, hPQ doc' hP⟩

lemma append {text' : List Char} (h : Reads d doc text P)
    (h' : ∀ doc, P doc → Reads d doc text' Q) : Reads d doc (text ++ text') Q := by
  intro n rest hn
  obtain ⟨m, doc', hm, hread, hP⟩ := h n (text' ++ rest) (by simpa [Nat.add_assoc] using hn)
  obtain ⟨m', doc'', hm', hread', hQ⟩ := h' doc' hP m rest (by simpa using hm)
  exact ⟨m', doc'', hm', by rw [List.append_assoc, hread, hread'], hQ⟩

/-- A text that is read as a whole is the document that is left. -/
lemma readLines_eq (h : Reads d doc text P) (hn : text.length < n) :
    ∃ doc', readLines d n doc text = some doc' ∧ P doc' := by
  obtain ⟨m, doc', hm, hread, hP⟩ := h n [] hn
  obtain ⟨m, rfl⟩ := Nat.exists_eq_add_one_of_ne_zero (Nat.ne_of_gt hm)
  rw [List.append_nil] at hread
  exact ⟨doc', hread, hP⟩

end Reads

/-! ### One line -/

lemma endLine_break (rest : List Char) : endLine ('\n' :: rest) = some rest := by
  simp [endLine, skipBlanks, isBlankChar]

/-- **A line puts its item into the open table.** -/
lemma reads_lineText {e : String × Value} (hd : d.allows 1 = true)
    (hfresh : ∀ f ∈ frames, f.Fresh) (hk : e.1 ∉ inner.map Prod.fst) (h : e.2.IsRead d 0)
    (hs : e.2.isSimple = true) :
    Reads d ⟨fill frames inner, pathOf frames⟩ (lineText e) fun doc =>
      ∃ i, i.value? d = some e.2 ∧ doc = ⟨fill frames (inner ++ [(e.1, i)]), pathOf frames⟩ := by
  intro n rest hn
  simp only [lineText, List.length_append, List.length_cons, List.length_nil] at hn
  obtain ⟨n, rfl⟩ := Nat.exists_eq_add_one_of_ne_zero (by omega : n ≠ 0)
  obtain ⟨i, hi, hvalue⟩ := h n ('\n' :: rest) (by omega) (closes_cons (by decide))
  refine ⟨n, _, by omega, ?_, i, hvalue, rfl⟩
  obtain ⟨m, rfl⟩ := Nat.exists_eq_add_one_of_ne_zero (by omega : n ≠ 0)
  obtain ⟨c, r, hcs, hblank, hc⟩ := exists_keyText_plain e.1
  obtain ⟨a, l, htext, ha⟩ := exists_valueText hs
  have hvalueText : skipBlanks (' ' :: (valueText e.2 ++ '\n' :: rest))
      = valueText e.2 ++ '\n' :: rest := by
    rw [skipBlanks_blank, htext, List.cons_append, skipBlanks_of_not_blank ha.not_blank]
  have hassign : readAssignment d (m + 1) ⟨fill frames inner, pathOf frames⟩
      (keyText e.1 ++ ' ' :: '=' :: ' ' :: (valueText e.2 ++ '\n' :: rest))
      = some (⟨fill frames (inner ++ [(e.1, i)]), pathOf frames⟩, '\n' :: rest) := by
    rw [readAssignment, readPath_keyText hd]
    simp only [hvalueText, hi, assign_fill hfresh hk, Option.map_some]
  have hline : lineText e ++ rest
      = keyText e.1 ++ ' ' :: '=' :: ' ' :: (valueText e.2 ++ '\n' :: rest) := by
    simp [lineText]
  rw [hline]
  rw [hcs, List.cons_append] at hassign ⊢
  rw [readLines, skipBlanks_of_not_blank hblank]
  split
  all_goals simp_all [endLine_break]

/-! ### Headers -/

lemma pathText_cons (k : String) (ks : List String) :
    pathText (k :: ks) = keyText k ++ ks.flatMap fun k => '.' :: keyText k := by
  induction ks generalizing k with
  | nil => simp [pathText, List.intercalate_singleton]
  | cons l ks ih =>
    have ih := ih l
    rw [pathText, List.map_cons] at ih
    rw [pathText, List.map_cons, List.map_cons, List.intercalate_cons_cons, ih]
    simp

lemma readKeys_pathText (k : String) (ks : List String) (hn : ks.length < n) (rest : List Char) :
    readKeys n (pathText (k :: ks) ++ ']' :: rest) = some (k :: ks, ']' :: rest) := by
  obtain ⟨n, rfl⟩ := Nat.exists_eq_add_one_of_ne_zero (by omega : n ≠ 0)
  rw [pathText_cons, List.append_assoc]
  induction ks generalizing k n with
  | nil =>
    obtain ⟨c, r, hcs, hblank, -⟩ := exists_keyText_plain k
    have hkey := readSimpleKey_keyText k (closesKey_cons (by decide) : ClosesKey (']' :: rest))
    rw [List.flatMap_nil, List.nil_append, readKeys]
    rw [hcs, List.cons_append] at hkey ⊢
    rw [skipBlanks_of_not_blank hblank, hkey]
    simp only [skipBlanks_of_not_blank (by decide : isBlankChar ']' = false)]
    rfl
  | cons l ks ih =>
    obtain ⟨c, r, hcs, hblank, -⟩ := exists_keyText_plain k
    obtain ⟨n, rfl⟩ := Nat.exists_eq_add_one_of_ne_zero
      (by rw [List.length_cons] at hn; omega : n ≠ 0)
    have ih := ih l n (by simpa using hn)
    have hkey := readSimpleKey_keyText k (closesKey_cons (by decide) : ClosesKey ('.' ::
      (keyText l ++ ((ks.flatMap fun k => '.' :: keyText k) ++ ']' :: rest))))
    rw [List.flatMap_cons, readKeys]
    simp only [List.cons_append, List.append_assoc]
    rw [hcs, List.cons_append] at hkey ⊢
    rw [skipBlanks_of_not_blank hblank, hkey]
    simp only [skipBlanks_of_not_blank (by decide : isBlankChar '.' = false), ih, Option.map_some]

lemma length_le_pathText (k : String) (ks : List String) :
    ks.length ≤ (pathText (k :: ks)).length := by
  rw [pathText_cons, List.length_append, List.length_flatMap]
  have : ks.length ≤ (ks.map fun k => ('.' :: keyText k).length).sum := by
    induction ks with
    | nil => simp
    | cons l ks ih => simp at ih ⊢; omega
  omega

lemma readPath_pathText (hd : d.allows (path ++ [k]).length = true)
    (hn : (pathText (path ++ [k])).length < n) (rest : List Char) :
    readPath d n (pathText (path ++ [k]) ++ ']' :: rest) = some (path ++ [k], ']' :: rest) := by
  obtain ⟨l, ks, hpath⟩ := List.exists_cons_of_ne_nil (List.concat_ne_nil k path)
  rw [hpath] at hd hn ⊢
  have hlength := length_le_pathText l ks
  rw [readPath, readKeys_pathText l ks (by omega), Option.filter_some, if_pos hd]

lemma pathText_ne_bracket (path : List String) (k : String) :
    ∃ c r, pathText (path ++ [k]) = c :: r ∧ c ≠ '[' := by
  obtain ⟨l, ks, hpath⟩ := List.exists_cons_of_ne_nil (List.concat_ne_nil k path)
  obtain ⟨c, r, hcs, -, hc⟩ := exists_keyText_plain l
  refine ⟨c, _, by rw [hpath, pathText_cons, hcs, List.cons_append], ?_⟩
  rintro rfl
  simp at hc

/-- A header stands on a line of its own, after an empty one. -/
lemma readLines_header {cs : List Char} (h : readHeader d n doc cs = some (doc', '\n' :: rest)) :
    readLines d (n + 1 + 1) doc ('\n' :: '[' :: cs) = readLines d n doc' rest := by
  rw [readLines, skipBlanks_of_not_blank (by decide)]
  show readLines d (n + 1) doc ('[' :: cs) = _
  rw [readLines, skipBlanks_of_not_blank (by decide)]
  simp only [h, endLine_break]

/-- What is read of a header is its path, and the document is changed there. -/
lemma reads_headerText (hd : d.allows (path ++ [k]).length = true)
    (h : doc.header openTable (path ++ [k]) = some doc') :
    Reads d doc (headerText (path ++ [k])) fun doc => doc = doc' := by
  intro n rest hn
  simp only [headerText, List.length_append, List.length_cons, List.length_nil] at hn
  obtain ⟨n, rfl⟩ := Nat.exists_eq_add_one_of_ne_zero (by omega : n ≠ 0)
  obtain ⟨n, rfl⟩ := Nat.exists_eq_add_one_of_ne_zero (by omega : n ≠ 0)
  obtain ⟨c, r, hcs, hc⟩ := pathText_ne_bracket path k
  have hpath := readPath_pathText hd (by omega : _ < n) ('\n' :: rest)
  have hheader : readHeader d n doc (pathText (path ++ [k]) ++ ']' :: '\n' :: rest)
      = some (doc', '\n' :: rest) := by
    rw [hcs, List.cons_append] at hpath ⊢
    rw [readHeader]
    · rw [hpath]
      simp [h]
    · simp_all
  refine ⟨n, doc', by omega, ?_, rfl⟩
  have htext : headerText (path ++ [k]) ++ rest
      = '\n' :: '[' :: (pathText (path ++ [k]) ++ ']' :: '\n' :: rest) := by simp [headerText]
  rw [htext, readLines_header hheader]

lemma reads_elementHeaderText (hd : d.allows (path ++ [k]).length = true)
    (h : doc.header openElement (path ++ [k]) = some doc') :
    Reads d doc (elementHeaderText (path ++ [k])) fun doc => doc = doc' := by
  intro n rest hn
  simp only [elementHeaderText, List.length_append, List.length_cons, List.length_nil] at hn
  obtain ⟨n, rfl⟩ := Nat.exists_eq_add_one_of_ne_zero (by omega : n ≠ 0)
  obtain ⟨n, rfl⟩ := Nat.exists_eq_add_one_of_ne_zero (by omega : n ≠ 0)
  have hpath := readPath_pathText hd (by omega : _ < n) (']' :: '\n' :: rest)
  have hheader : readHeader d n doc ('[' :: (pathText (path ++ [k]) ++ ']' :: ']' :: '\n' :: rest))
      = some (doc', '\n' :: rest) := by
    rw [readHeader, hpath]
    simp [h]
  refine ⟨n, doc', by omega, ?_, rfl⟩
  have htext : elementHeaderText (path ++ [k]) ++ rest
      = '\n' :: '[' :: '[' :: (pathText (path ++ [k]) ++ ']' :: ']' :: '\n' :: rest) := by
    simp [elementHeaderText]
  rw [htext, readLines_header hheader]

/-! ### Tables -/

/-- What is written for the value below its path is read into the table that is open. -/
def Value.AddsItem (d : Dialect) (frames : List Frame) (v : Value) : Prop :=
  ∀ inner k doc, k ∉ inner.map Prod.fst → Document.IsOpen doc frames inner →
    Reads d doc (sections (pathOf frames ++ [k]) v) fun doc =>
      ∃ i, i.value? d = some v ∧ doc.items = fill frames (inner ++ [(k, i)])

/-- A legible value that has headers is read wherever it stands. -/
def Value.IsReadUnder (d : Dialect) (v : Value) : Prop :=
  ∀ frames : List Frame, (∀ f ∈ frames, f.Fresh) → v.isInline = false →
    v.isLegibleUnder d (frames.length + 1) = true → v.AddsItem d frames

/-- The entries of a table of which each is read. -/
structure AreRead (d : Dialect) (es : Entries) : Prop where
  sorted : Sorted es
  orderly : ∀ e ∈ es, e.2.Orderly
  simple : ∀ e ∈ es, e.2.isSimple = true
  under : ∀ e ∈ es, e.2.IsReadUnder d

lemma Stands.append {its' : Items} {l' : Entries} (h : Stands d its l) (h' : Stands d its' l') :
    Stands d (its ++ its') (l ++ l') := by
  induction h with
  | nil => exact h'
  | cons hhead _ ih => exact .cons hhead ih

lemma reads_lines (hd : d.allows 1 = true) (hfresh : ∀ f ∈ frames, f.Fresh)
    (hs : ∀ e ∈ l, e.2.isSimple = true) (h : ∀ e ∈ l, e.2.IsRead d 0)
    (hnodup : (inner.map Prod.fst ++ l.map Prod.fst).Nodup) :
    Reads d ⟨fill frames inner, pathOf frames⟩ (l.flatMap lineText) fun doc =>
      ∃ its, Stands d its l ∧ doc = ⟨fill frames (inner ++ its), pathOf frames⟩ := by
  induction l generalizing inner with
  | nil => exact .nil ⟨[], .nil, by rw [List.append_nil]⟩
  | cons e l ih =>
    have hk : e.1 ∉ inner.map Prod.fst := fun hmem =>
      (List.nodup_append.mp hnodup).2.2 _ hmem _ List.mem_cons_self rfl
    rw [List.flatMap_cons]
    have hline := reads_lineText hd hfresh hk (h e List.mem_cons_self) (hs e List.mem_cons_self)
    refine hline.append ?_
    rintro _ ⟨i, hi, rfl⟩
    have hrest : ((inner ++ [(e.1, i)]).map Prod.fst ++ l.map Prod.fst).Nodup := by
      simpa using hnodup
    refine (ih (fun e he => hs e (List.mem_cons_of_mem _ he))
      (fun e he => h e (List.mem_cons_of_mem _ he)) hrest).mono ?_
    rintro _ ⟨its, hits, rfl⟩
    exact ⟨(e.1, i) :: its, .cons ⟨rfl, hi⟩ hits, by rw [List.append_assoc]; rfl⟩

lemma reads_below (h : ∀ e ∈ l, e.2.isInline = false → e.2.AddsItem d frames)
    (hnodup : (inner.map Prod.fst ++ (l.filter fun e => !e.2.isInline).map Prod.fst).Nodup)
    (hdoc : doc.items = fill frames inner) :
    Reads d doc (below (pathOf frames) l) fun doc =>
      ∃ its, Stands d its (l.filter fun e => !e.2.isInline)
        ∧ doc.items = fill frames (inner ++ its) := by
  induction l generalizing inner doc with
  | nil => exact .nil ⟨[], .nil, by rw [List.append_nil, hdoc]⟩
  | cons e l ih =>
    have hl : ∀ e ∈ l, e.2.isInline = false → e.2.AddsItem d frames :=
      fun e he => h e (List.mem_cons_of_mem _ he)
    rw [below, List.flatMap_cons]
    rcases hline : e.2.isInline with _ | _
    · rw [List.filter_cons_of_pos (by simp [hline])] at hnodup ⊢
      have hk : e.1 ∉ inner.map Prod.fst := fun hmem =>
        (List.nodup_append.mp hnodup).2.2 _ hmem _ List.mem_cons_self rfl
      refine (h e List.mem_cons_self hline inner e.1 doc hk (.of_items hdoc)).append ?_
      rintro doc ⟨i, hi, hdoc⟩
      refine (ih hl (by simpa using hnodup) hdoc).mono ?_
      rintro doc ⟨its, hits, hdoc⟩
      exact ⟨(e.1, i) :: its, .cons ⟨rfl, hi⟩ hits, by rw [hdoc, List.append_assoc]; rfl⟩
    · rw [List.filter_cons_of_neg (by simp [hline])] at hnodup ⊢
      rw [sections_of_isInline hline, List.nil_append]
      exact ih hl hnodup hdoc

/-- **The entries of a table are read into it.** -/
lemma reads_entries (hd : d.allows 1 = true) (hfresh : ∀ f ∈ frames, f.Fresh) (h : AreRead d es)
    (hl : entriesAreLegibleUnder d frames.length es = true) (hperm : l.Perm es) :
    Reads d ⟨fill frames [], pathOf frames⟩ (bodyText l ++ below (pathOf frames) l) fun doc =>
      ∃ its, Stands d its (linesFirst l) ∧ doc.items = fill frames its := by
  rw [entriesAreLegibleUnder_iff] at hl
  have hmem : ∀ e ∈ l, e ∈ es := fun e he => hperm.mem_iff.mp he
  have hnodup : ((linesFirst l).map Prod.fst).Nodup :=
    (((linesFirst_perm l).trans hperm).map Prod.fst).nodup_iff.mpr h.sorted.nodup
  rw [linesFirst, List.map_append] at hnodup
  have hlines : ∀ e ∈ l.filter (fun e => e.2.isInline), e.2.IsRead d 0 := by
    intro e he
    obtain ⟨he, hline⟩ := List.mem_filter.mp he
    exact (h.orderly e (hmem e he)).isRead hd (h.simple e (hmem e he))
      (Value.isLegible_of_isInline hline (hl e (hmem e he)))
  have hsimple : ∀ e ∈ l.filter (fun e => e.2.isInline), e.2.isSimple = true :=
    fun e he => h.simple e (hmem e (List.mem_filter.mp he).1)
  have hempty : (([] : Items).map Prod.fst
      ++ (l.filter fun e => e.2.isInline).map Prod.fst).Nodup := (List.nodup_append.mp hnodup).1
  refine (reads_lines hd hfresh hsimple hlines hempty).append ?_
  rintro _ ⟨its, hits, rfl⟩
  have hbelow : ∀ e ∈ l, e.2.isInline = false → e.2.AddsItem d frames := fun e he hline =>
    h.under e (hmem e he) frames hfresh hline (hl e (hmem e he))
  rw [List.nil_append]
  refine (reads_below hbelow (by rwa [hits.keys_eq]) rfl).mono ?_
  rintro doc ⟨its', hits', hdoc⟩
  exact ⟨its ++ its', hits.append hits', hdoc⟩

/-- The item of a table that was open stands for the table. -/
lemma Stands.value?_table (h : Stands d its (written es))
    (hdate : d.takesForDate (written es) = false) (hes : Sorted es) (o : Origin) :
    (Item.table o its).value? d = some (.table es) := by
  rw [Item.value?]
  exact h.tableValue?_eq hdate (written_perm es) hes

/-- A table that has subtables only is read although it has no header. -/
lemma reads_contents_missing (hfresh : ∀ f ∈ frames, f.Fresh) (h : AreRead d es)
    (hl : entriesAreLegibleUnder d frames.length es = true) (hheader : needsHeader es = false)
    (hopen : doc.IsOpen frames []) :
    Reads d doc (contents (pathOf frames) es) fun doc =>
      ∃ its, Stands d its (written es) ∧ doc.items = fill frames its := by
  rw [entriesAreLegibleUnder_iff] at hl
  simp only [needsHeader, Bool.or_eq_false_iff, List.any_eq_false, Bool.not_eq_true] at hheader
  obtain ⟨hne, hall⟩ := hheader
  have hperm := ranked_perm es
  have hnodup : ((ranked es).map Prod.fst).Nodup :=
    (hperm.map Prod.fst).nodup_iff.mpr h.sorted.nodup
  have hline : ∀ e ∈ ranked es, e.2.isInline = false := fun e he => hall e (hperm.mem_iff.mp he)
  have hadds : ∀ e ∈ ranked es, e.2.AddsItem d frames := fun e he =>
    h.under e (hperm.mem_iff.mp he) frames hfresh (hline e he) (hl e (hperm.mem_iff.mp he))
  have hlines : (ranked es).filter (fun e => e.2.isInline) = [] :=
    List.filter_eq_nil_iff.mpr fun e he => by simp [hline e he]
  have hothers : (ranked es).filter (fun e => !e.2.isInline) = ranked es :=
    List.filter_eq_self.mpr fun e he => by simp [hline e he]
  rw [contents, bodyText, hlines, List.flatMap_nil, List.nil_append, written, linesFirst, hlines,
    List.nil_append, hothers]
  rcases hranked : ranked es with _ | ⟨e, l⟩
  · obtain rfl : es = [] := List.nil_perm.mp (hranked ▸ hperm)
    simp at hne
  · rw [hranked] at hnodup hline hadds
    rw [below, List.flatMap_cons]
    -- the first header makes the table, and the others find it
    refine (hadds e List.mem_cons_self [] e.1 doc (by simp) hopen).append ?_
    rintro doc ⟨i, hi, hdoc⟩
    have hrest : l.filter (fun e => !e.2.isInline) = l :=
      List.filter_eq_self.mpr fun e he => by simp [hline e (List.mem_cons_of_mem _ he)]
    refine (reads_below (fun e he _ => hadds e (List.mem_cons_of_mem _ he))
      (by rw [hrest]; simpa using hnodup) hdoc).mono ?_
    rintro doc ⟨its, hits, hdoc⟩
    exact ⟨(e.1, i) :: its, .cons ⟨rfl, hi⟩ (hrest ▸ hits), hdoc⟩

/-- **A table is read that is written with or without a header of its own.** -/
lemma AreRead.isReadUnder (hd : d.allows 1 = true) (h : AreRead d es) :
    (Value.table es).IsReadUnder d := by
  intro frames hfresh _ hl inner k doc hk hopen
  rw [Value.isLegibleUnder, Bool.and_eq_true, Bool.and_eq_true, Bool.not_eq_true'] at hl
  obtain ⟨⟨hallows, hdate⟩, hl⟩ := hl
  rw [sections_table]
  have hclosed : ∀ implicit doc, (∃ its, Stands d its (written es)
      ∧ Document.items doc = fill (frames ++ [.table inner k implicit]) its) →
      ∃ i, i.value? d = some (.table es) ∧ doc.items = fill frames (inner ++ [(k, i)]) := by
    rintro implicit doc ⟨its, hits, hdoc⟩
    exact ⟨_, hits.value?_table hdate h.sorted _, by rw [hdoc, fill_concat]; rfl⟩
  have hpath : ∀ implicit, pathOf (frames ++ [.table inner k implicit]) = pathOf frames ++ [k] :=
    fun implicit => by rw [pathOf_concat]; rfl
  have hfresh' : ∀ implicit, ∀ f ∈ frames ++ [.table inner k implicit], f.Fresh :=
    fun implicit => fresh_concat hfresh hk
  have hl' : ∀ implicit,
      entriesAreLegibleUnder d (frames ++ [Frame.table inner k implicit]).length es = true :=
    fun implicit => by rw [List.length_append]; exact hl
  split
  · have hheader : doc.header openTable (pathOf frames ++ [k])
        = some ⟨fill (frames ++ [.table inner k false]) [],
          pathOf (frames ++ [.table inner k false])⟩ := by
      have := hopen openTable [] k
      rw [List.append_nil] at this
      rw [this, header_openTable hfresh hk]
    refine (reads_headerText (by simpa using hallows) hheader).append ?_
    rintro _ rfl
    rw [contents, ← hpath false]
    refine (reads_entries hd (hfresh' false) h (hl' false) (ranked_perm es)).mono ?_
    exact hclosed false
  · next hheader =>
    rw [List.nil_append, ← hpath true]
    exact (reads_contents_missing (hfresh' true) h (hl' true) (by simpa using hheader)
      (hopen.missing hfresh hk)).mono (hclosed true)

/-- The elements of an array of tables are read one after the other. -/
lemma reads_elementSections (hd : d.allows 1 = true) (hfresh : ∀ f ∈ frames, f.Fresh)
    (hk : k ∉ inner.map Prod.fst) (hne : vs ≠ [])
    (h : ∀ v ∈ vs, ∃ es, v = .table es ∧ AreRead d es)
    (hl : ∀ v ∈ vs, v.isLegibleUnder d (frames.length + 1) = true) {ts : List Items}
    (hopen : doc.IsOpen frames (withElements inner k ts)) :
    Reads d doc (elementSections (pathOf frames ++ [k]) vs) fun doc =>
      ∃ ts', tableValues? d ts' = some vs
        ∧ doc.items = fill frames (withElements inner k (ts ++ ts')) := by
  induction vs generalizing doc ts with
  | nil => exact absurd rfl hne
  | cons v vs ih =>
    obtain ⟨es, rfl, hes⟩ := h v List.mem_cons_self
    have hlv := hl _ List.mem_cons_self
    rw [Value.isLegibleUnder, Bool.and_eq_true, Bool.and_eq_true, Bool.not_eq_true'] at hlv
    obtain ⟨⟨hallows, hdate⟩, hlv⟩ := hlv
    have hpath : pathOf (frames ++ [.element inner k ts]) = pathOf frames ++ [k] := by
      rw [pathOf_concat]
      rfl
    have hheader : doc.header openElement (pathOf frames ++ [k])
        = some ⟨fill (frames ++ [.element inner k ts]) [],
          pathOf (frames ++ [.element inner k ts])⟩ := by
      have := hopen openElement [] k
      rw [List.append_nil] at this
      rw [this, header_openElement hfresh hk]
    rw [elementSections_cons]
    refine (reads_elementHeaderText (by simpa using hallows) hheader).append ?_
    rintro _ rfl
    have hcontents := reads_entries hd (fresh_concat hfresh (f := .element inner k ts) hk) hes
      (by rw [List.length_append]; exact hlv) (ranked_perm es)
    rw [hpath] at hcontents ⊢
    rw [contents]
    refine hcontents.append ?_
    rintro doc ⟨its, hits, hdoc⟩
    have hvalue := hits.tableValue?_eq hdate (written_perm es) hes.sorted
    have hitems : doc.items = fill frames (withElements inner k (ts ++ [its])) := by
      rw [hdoc, fill_concat, withElements, if_neg (by simp)]
      rfl
    rcases eq_or_ne vs [] with rfl | hvs
    · exact .nil ⟨[its], by simp [tableValues?, hvalue], hitems⟩
    · refine (ih hvs (fun v hv => h v (List.mem_cons_of_mem _ hv))
        (fun v hv => hl v (List.mem_cons_of_mem _ hv)) (.of_items hitems)).mono ?_
      rintro doc ⟨ts', hts, hdoc⟩
      exact ⟨its :: ts', by simp [tableValues?, hvalue, hts], by rw [hdoc, List.append_assoc]; rfl⟩

/-- **An array of tables is read.** -/
lemma isReadUnder_array (hd : d.allows 1 = true)
    (h : ∀ v ∈ vs, ∀ es, v = .table es → AreRead d es) : (Value.array vs).IsReadUnder d := by
  intro frames hfresh hline hl inner k doc hk hopen
  have harray : (Value.array vs).isTableArray = true := by
    simpa [Value.isInline, Value.isTable] using hline
  have hparts : vs ≠ [] ∧ ∀ v ∈ vs, v.isTable = true := by
    simpa [Value.isTableArray] using harray
  have htables : ∀ v ∈ vs, ∃ es, v = .table es ∧ AreRead d es := by
    intro v hv
    have htable := hparts.2 v hv
    cases v with
    | table es => exact ⟨es, rfl, h _ hv es rfl⟩
    | _ => simp [Value.isTable] at htable
  rw [Value.isLegibleUnder, if_pos harray, areLegibleUnder_iff] at hl
  rw [sections, if_pos harray]
  have hstart : doc.IsOpen frames (withElements inner k []) := hopen
  refine (reads_elementSections hd hfresh hk hparts.1 htables hl hstart).mono ?_
  rintro doc ⟨ts, hts, hdoc⟩
  have hne : ts ≠ [] := by
    rintro rfl
    exact hparts.1 (Option.some.inj hts).symm
  refine ⟨.tables ts, by rw [Item.value?, hts]; rfl, ?_⟩
  rw [hdoc, List.nil_append, withElements, if_neg hne]

lemma Value.Orderly.isReadUnder (hv : v.Orderly) (hd : d.allows 1 = true)
    (hs : v.isSimple = true) : v.IsReadUnder d ∧ ∀ es, v = .table es → AreRead d es := by
  induction hv with
  | @array vs _ ih =>
    rw [Value.isSimple, areSimple_iff] at hs
    exact ⟨isReadUnder_array hd fun v hv es heq => (ih v hv (hs v hv)).2 es heq, by simp⟩
  | @table es sorted horderly ih =>
    rw [Value.isSimple, entriesAreSimple_iff] at hs
    have hes : AreRead d es := ⟨sorted, horderly, hs, fun e he => (ih e he (hs e he)).1⟩
    refine ⟨hes.isReadUnder hd, ?_⟩
    rintro _ heq
    obtain rfl := Value.table.inj heq
    exact hes
  | _ =>
    refine ⟨fun _ _ hline => ?_, by simp⟩
    simp [Value.isInline, Value.isTable, Value.isTableArray] at hline

/-! ### Files -/

/-- No file that can be read has a further byte order mark. -/
lemma readLines_mark (doc : Document) (rest : List Char) :
    readLines d n doc ('\uFEFF' :: rest) = none := by
  cases n with
  | zero => rfl
  | succ n =>
    have hblank : skipBlanks ('\uFEFF' :: rest) = '\uFEFF' :: rest :=
      skipBlanks_of_not_blank (by decide)
    have hkey : readSimpleKey ('\uFEFF' :: rest) = none := by
      have htake : ('\uFEFF' :: rest).takeWhile isBareKeyChar = [] :=
        List.takeWhile_cons_of_neg (by decide)
      rw [readSimpleKey, if_neg (by decide), htake]
      rfl
    have hkeys : readKeys n ('\uFEFF' :: rest) = none := by
      cases n with
      | zero => rfl
      | succ n => rw [readKeys, hblank, hkey]
    rw [readLines, hblank]
    split
    all_goals simp_all [readAssignment, readPath]

/-- **What is written is read again**, if it is legible. -/
theorem read?_render (hd : d.allows 1 = true) (hes : Sorted es) (ho : ∀ e ∈ es, e.2.Orderly)
    (hs : entriesAreSimple es = true) (hl : entriesAreLegibleUnder d 0 es = true) :
    read? d (render es) = some es := by
  rw [entriesAreSimple_iff] at hs
  have hread : AreRead d es :=
    ⟨hes, ho, hs, fun e he => ((ho e he).isReadUnder hd (hs e he)).1⟩
  have hnone : ∀ f ∈ ([] : List Frame), f.Fresh := by simp
  have hentries : Reads d .empty (bodyText es ++ below [] es) fun doc =>
      ∃ its, Stands d its (linesFirst es) ∧ doc.items = its :=
    reads_entries hd hnone hread hl (.refl es)
  have htext : dropMark (render es).toList = bodyText es ++ below [] es := by
    rw [render_eq, String.toList_ofList]
    unfold dropMark
    split
    · next r heq =>
      obtain ⟨doc, hdoc, -⟩ := hentries.readLines_eq (Nat.lt_succ_self _)
      rw [heq, readLines_mark] at hdoc
      simp at hdoc
    · rfl
  obtain ⟨doc, hdoc, its, hits, rfl⟩ := hentries.readLines_eq
    (by omega : _ < 2 * (bodyText es ++ below [] es).length + 2)
  have hvalue : Document.entries? d doc = some es := by
    rw [Document.entries?, hits.itemEntries?_eq, foldr_insert_of_perm hes (linesFirst_perm es)]
  rw [read?, htext]
  simp only [hdoc, Option.bind_some, hvalue]

end DeployClient.Toml
