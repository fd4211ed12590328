import DeployClient.Proofs.Legible
import DeployClient.Proofs.ScalarText

/-!
Values on a line, written and read again.

An array or a table between braces is read element by element. The text of each element is closed
by the comma, the blank or the bracket after it, and as many characters as it has are steps enough
to read it.
-/

namespace DeployClient.Toml

variable {d : Dialect} {depth n : Nat} {c : Char} {cs rest : List Char} {v : Value}
  {vs : List Value} {es l : Entries} {its : Items} {key : String} {i : Item}

/-! ### Blanks -/

lemma skipBlanks_blank : skipBlanks (' ' :: cs) = skipBlanks cs := by
  rw [skipBlanks, List.dropWhile_cons_of_pos (by decide)]
  rfl

lemma skipBlanks_of_not_blank (h : isBlankChar c = false) : skipBlanks (c :: cs) = c :: cs := by
  rw [skipBlanks, List.dropWhile_cons_of_neg (by simp [h])]

lemma skipFiller_blank : skipFiller false (' ' :: cs) = skipFiller false cs := by
  rw [skipFiller] <;> simp [isBlankChar]

lemma skipFiller_of_notMem (h : c ∉ [' ', '\t', '\n', '\r', '#']) :
    skipFiller false (c :: cs) = some (c :: cs) := by
  simp only [List.mem_cons, List.not_mem_nil, or_false, not_or] at h
  obtain ⟨hblank, htab, hbreak, hreturn, hmark⟩ := h
  rw [skipFiller] <;> simp_all [isBlankChar]

/-- What a value on a line can begin with. -/
def Begins (c : Char) : Prop := c ∉ [' ', '\t', '\n', '\r', '#', ',', ']', '\x7d']

instance (c : Char) : Decidable (Begins c) := inferInstanceAs (Decidable (_ ∉ _))

lemma Begins.not_blank (h : Begins c) : isBlankChar c = false := by
  simp_all [Begins, isBlankChar]

lemma Begins.not_filler (h : Begins c) : c ∉ [' ', '\t', '\n', '\r', '#'] := by
  simp_all [Begins]

/-! ### The first character -/

lemma exists_valueText (h : v.isSimple = true) : ∃ c l, valueText v = c :: l ∧ Begins c := by
  cases v with
  | string s =>
    obtain ⟨c, l, hcs, rfl | rfl⟩ := exists_stringText s
    · exact ⟨_, l, by rw [valueText, hcs], by decide⟩
    · exact ⟨_, l, by rw [valueText, hcs], by decide⟩
  | integer i =>
    obtain ⟨c, l, hcs, hc⟩ := exists_integerText i
    refine ⟨c, l, by rw [valueText, hcs], ?_⟩
    rcases hc with rfl | hc
    · decide
    · intro hmem
      simp only [List.mem_cons, List.not_mem_nil, or_false] at hmem
      rcases hmem with rfl | rfl | rfl | rfl | rfl | rfl | rfl | rfl <;> simp [isDigit] at hc
  | boolean b => cases b <;> exact ⟨_, _, rfl, by decide⟩
  | float f => simp [Value.isSimple] at h
  | moment m => simp [Value.isSimple] at h
  | array vs => exact ⟨'[', _, by rw [valueText]; rfl, by decide⟩
  | table es =>
    rw [valueText, braced.eq_def]
    split
    · exact ⟨_, _, rfl, by decide⟩
    · exact ⟨_, _, rfl, by decide⟩

lemma length_valueText_pos (h : v.isSimple = true) : 0 < (valueText v).length := by
  obtain ⟨c, l, hcs, -⟩ := exists_valueText h
  simp [hcs]

/-! ### Arrays -/

/-- What is written for the value is read as an item that stands for it, whatever closes it. -/
def Value.IsRead (d : Dialect) (depth : Nat) (v : Value) : Prop :=
  ∀ n rest, (valueText v).length ≤ n → Closes rest →
    ∃ i, readItem d n depth (valueText v ++ rest) = some (i, rest) ∧ i.value? d = some v

lemma readItem_scalar (harray : c ≠ '[') (htable : c ≠ '\x7b') :
    readItem d (n + 1) depth (c :: cs)
      = (readScalar (c :: cs)).map fun p => (.value p.1, p.2) := by
  unfold readItem
  split <;> simp_all

/-- A value without brackets and braces is read if its text is. -/
lemma Value.IsRead.of_readScalar (hfirst : ∃ c l, valueText v = c :: l ∧ c ≠ '[' ∧ c ≠ '\x7b')
    (h : ∀ rest, Closes rest → readScalar (valueText v ++ rest) = some (v, rest)) :
    v.IsRead d depth := by
  intro n rest hn hrest
  obtain ⟨c, l, hcs, harray, htable⟩ := hfirst
  have hread := h rest hrest
  rw [hcs, List.cons_append] at hread ⊢
  rw [hcs, List.length_cons] at hn
  obtain ⟨m, rfl⟩ := Nat.exists_eq_add_one_of_ne_zero (by omega : n ≠ 0)
  exact ⟨.value v, by rw [readItem_scalar harray htable, hread]; rfl, by rw [Item.value?]⟩

lemma elementTexts_eq (vs : List Value) : elementTexts vs = vs.map valueText := by
  induction vs with
  | nil => rfl
  | cons v vs ih => rw [elementTexts, ih, List.map_cons]

lemma readElements_blank :
    readElements d n depth (' ' :: cs) = readElements d n depth cs := by
  cases n with
  | zero => rfl
  | succ n => rw [readElements, readElements, skipFiller_blank]

/-- An element of an array, and the last one. -/
lemma exists_readElements (hs : v.isSimple = true) (h : v.IsRead d depth)
    (hn : (valueText v).length ≤ n) (rest : List Char) :
    (∃ i, i.value? d = some v ∧ readElements d (n + 1) depth (valueText v ++ ',' :: rest)
        = (readElements d n depth rest).map fun p => (i :: p.1, p.2))
      ∧ ∃ i, i.value? d = some v
        ∧ readElements d (n + 1) depth (valueText v ++ ']' :: rest) = some ([i], rest) := by
  obtain ⟨c, l, hcs, hc⟩ := exists_valueText hs
  have hbracket : c ≠ ']' := by
    rintro rfl
    exact absurd hc (by decide)
  have hstep : ∀ i r, readItem d n depth (valueText v ++ r) = some (i, r) →
      skipFiller false r = some r →
      (∀ more, r = ',' :: more → readElements d (n + 1) depth (valueText v ++ r)
        = (readElements d n depth more).map fun p => (i :: p.1, p.2))
      ∧ ∀ more, r = ']' :: more → readElements d (n + 1) depth (valueText v ++ r)
        = some ([i], more) := by
    intro i r hi hr
    rw [hcs, List.cons_append] at hi ⊢
    rw [readElements, skipFiller_of_notMem hc.not_filler]
    constructor
    all_goals
      rintro more rfl
      split
      · next heq => simp at heq
      · next heq => simp_all
      · next heq =>
        obtain rfl := Option.some.inj heq
        simp only [hi, hr]
  constructor
  · obtain ⟨i, hi, hvalue⟩ := h n (',' :: rest) hn (closes_cons (by decide))
    exact ⟨i, hvalue, (hstep i _ hi (skipFiller_of_notMem (by decide))).1 rest rfl⟩
  · obtain ⟨i, hi, hvalue⟩ := h n (']' :: rest) hn (closes_cons (by decide))
    exact ⟨i, hvalue, (hstep i _ hi (skipFiller_of_notMem (by decide))).2 rest rfl⟩

lemma readElements_elementTexts (hs : ∀ v ∈ vs, v.isSimple = true)
    (h : ∀ v ∈ vs, v.IsRead d depth) (hn : (commaSeparated (vs.map valueText)).length < n)
    (rest : List Char) :
    ∃ is, readElements d n depth (commaSeparated (vs.map valueText) ++ ']' :: rest)
      = some (is, rest) ∧ itemValues? d is = some vs := by
  obtain ⟨n, rfl⟩ := Nat.exists_eq_add_one_of_ne_zero (by omega : n ≠ 0)
  induction vs generalizing n with
  | nil =>
    refine ⟨[], ?_, rfl⟩
    rw [List.map_nil, commaSeparated, List.intercalate_nil, List.nil_append, readElements,
      skipFiller_of_notMem (by decide)]
    rfl
  | cons v vs ih =>
    have hv := hs v List.mem_cons_self
    have hread := h v List.mem_cons_self
    cases vs with
    | nil =>
      rw [List.map_cons, List.map_nil, commaSeparated, List.intercalate_singleton] at hn ⊢
      obtain ⟨i, hi, hlast⟩ := (exists_readElements hv hread (Nat.le_of_lt_succ hn) rest).2
      exact ⟨[i], hlast, by simp [itemValues?, hi]⟩
    | cons w vs =>
      rw [List.map_cons, List.map_cons, commaSeparated, List.intercalate_cons_cons,
        ← List.map_cons] at hn ⊢
      simp only [List.length_append, List.length_cons, List.length_nil] at hn
      have hpos := length_valueText_pos hv
      obtain ⟨n, rfl⟩ := Nat.exists_eq_add_one_of_ne_zero (by omega : n ≠ 0)
      obtain ⟨is, his, hvalues⟩ := ih (fun v hmem => hs v (List.mem_cons_of_mem _ hmem))
        (fun v hmem => h v (List.mem_cons_of_mem _ hmem)) n (by rw [commaSeparated]; omega)
      obtain ⟨i, hi, hnext⟩ := (exists_readElements hv hread (by omega : _ ≤ n + 1)
        (' ' :: (commaSeparated ((w :: vs).map valueText) ++ ']' :: rest))).1
      refine ⟨i :: is, ?_, by simp [itemValues?, hi, hvalues]⟩
      rw [readElements_blank, his] at hnext
      simpa [commaSeparated] using hnext

/-- **An array is read as it was written.** -/
lemma Value.IsRead.array (hs : ∀ v ∈ vs, v.isSimple = true)
    (h : ∀ v ∈ vs, v.IsRead d (depth + 1)) (hdepth : d.allows (depth + 1) = true) :
    (Value.array vs).IsRead d depth := by
  intro n rest hn hrest
  rw [valueText, elementTexts_eq] at hn ⊢
  simp only [List.length_cons, List.length_append, List.length_nil] at hn
  obtain ⟨n, rfl⟩ := Nat.exists_eq_add_one_of_ne_zero (by omega : n ≠ 0)
  obtain ⟨is, his, hvalues⟩ := readElements_elementTexts hs h
    (by omega : (commaSeparated (vs.map valueText)).length < n) rest
  refine ⟨.array is, ?_, by rw [Item.value?, hvalues]; rfl⟩
  rw [List.cons_append, List.cons_append, List.append_assoc, List.singleton_append, readItem,
    if_pos hdepth, his]
  rfl

/-! ### Tables between braces -/

def pairText (e : String × Value) : List Char := keyText e.1 ++ ' ' :: '=' :: ' ' :: valueText e.2

lemma ranked_pairTexts (es : Entries) :
    inRankOrder (pairTexts es) = (ranked es).map pairText := by
  have heq : pairTexts es = (es.map fun e => (e.2.rank, e)).map fun p => (p.1, pairText p.2) := by
    induction es with
    | nil => rfl
    | cons e es ih => rw [pairTexts, ih, List.map_cons, List.map_cons]; rfl
  rw [heq, inRankOrder_map, ranked]

/-- What a key is written with begins neither a comment nor a header, and ends no table. -/
lemma exists_keyText_plain (key : String) : ∃ c l, keyText key = c :: l
    ∧ isBlankChar c = false ∧ c ∉ ['\n', '\r', '#', '[', '\x7d', '\uFEFF'] := by
  obtain ⟨c, l, hcs, hc⟩ := exists_keyText key
  refine ⟨c, l, hcs, ?_⟩
  rcases hc with rfl | hc
  · decide
  · constructor
    · by_contra hblank
      simp only [isBlankChar, Bool.not_eq_false, Bool.or_eq_true, decide_eq_true_eq] at hblank
      rcases hblank with rfl | rfl <;> revert hc <;> decide
    · intro hmem
      simp only [List.mem_cons, List.not_mem_nil, or_false] at hmem
      rcases hmem with rfl | rfl | rfl | rfl | rfl | rfl <;> revert hc <;> decide

/-- A key with a value after it is read as a path of one key. -/
lemma readPath_keyText (hd : d.allows 1 = true) (key : String) (rest : List Char) :
    readPath d (n + 1) (keyText key ++ ' ' :: '=' :: rest) = some ([key], '=' :: rest) := by
  obtain ⟨c, l, hcs, hblank, -⟩ := exists_keyText_plain key
  have hkey := readSimpleKey_keyText key
    (closesKey_cons (by decide) : ClosesKey (' ' :: '=' :: rest))
  have hkeys : readKeys (n + 1) (keyText key ++ ' ' :: '=' :: rest)
      = some ([key], '=' :: rest) := by
    rw [readKeys]
    rw [hcs, List.cons_append] at hkey ⊢
    rw [skipBlanks_of_not_blank hblank, hkey]
    simp only [skipBlanks_blank, skipBlanks_of_not_blank (by decide : isBlankChar '=' = false)]
    rfl
  rw [readPath, hkeys]
  simp [hd]

lemma readPairs_blank :
    readPairs d n depth (' ' :: cs) = readPairs d n depth cs := by
  cases n with
  | zero => rfl
  | succ n =>
    have hpath : readPath d n (' ' :: cs) = readPath d n cs := by
      cases n with
      | zero => rfl
      | succ n => rw [readPath, readPath, readKeys, readKeys, skipBlanks_blank]
    rw [readPairs, readPairs, hpath]

/-- A pair in a table between braces, and the last one. -/
lemma exists_readPairs {e : String × Value} (hd : d.allows 1 = true) (hs : e.2.isSimple = true)
    (h : e.2.IsRead d depth) (hn : (valueText e.2).length ≤ n) (rest : List Char) :
    (∃ i, i.value? d = some e.2 ∧ readPairs d (n + 1) depth (pairText e ++ ',' :: rest)
        = (readPairs d n depth rest).map fun p => (([e.1], i) :: p.1, p.2))
      ∧ ∃ i, i.value? d = some e.2
        ∧ readPairs d (n + 1) depth (pairText e ++ ' ' :: '\x7d' :: rest)
          = some ([([e.1], i)], rest) := by
  obtain ⟨c, l, hcs, hc⟩ := exists_valueText hs
  have hpos := length_valueText_pos hs
  have hpath : ∀ r, readPath d n (pairText e ++ r)
        = some ([e.1], '=' :: ' ' :: (valueText e.2 ++ r))
      ∧ skipBlanks (' ' :: (valueText e.2 ++ r)) = valueText e.2 ++ r := by
    intro r
    obtain ⟨m, rfl⟩ := Nat.exists_eq_add_one_of_ne_zero (by omega : n ≠ 0)
    constructor
    · rw [pairText, List.append_assoc]
      exact readPath_keyText hd e.1 _
    · rw [skipBlanks_blank, hcs, List.cons_append, skipBlanks_of_not_blank hc.not_blank]
  constructor
  · obtain ⟨i, hi, hvalue⟩ := h n (',' :: rest) hn (closes_cons (by decide))
    have hcomma : skipBlanks (',' :: rest) = ',' :: rest := skipBlanks_of_not_blank (by decide)
    refine ⟨i, hvalue, ?_⟩
    rw [readPairs, (hpath _).1]
    simp only [(hpath _).2, hi, hcomma]
  · obtain ⟨i, hi, hvalue⟩ := h n (' ' :: '\x7d' :: rest) hn (closes_cons (by decide))
    have hclose : skipBlanks (' ' :: '\x7d' :: rest) = '\x7d' :: rest := by
      rw [skipBlanks_blank, skipBlanks_of_not_blank (by decide)]
    refine ⟨i, hvalue, ?_⟩
    rw [readPairs, (hpath _).1]
    simp only [(hpath _).2, hi, hclose]

lemma readPairs_pairTexts (hd : d.allows 1 = true) (hne : l ≠ [])
    (hs : ∀ e ∈ l, e.2.isSimple = true) (h : ∀ e ∈ l, e.2.IsRead d depth)
    (hn : (commaSeparated (l.map pairText)).length < n) (rest : List Char) :
    ∃ its, readPairs d n depth (commaSeparated (l.map pairText) ++ ' ' :: '\x7d' :: rest)
      = some (its.map fun i => ([i.1], i.2), rest) ∧ Stands d its l := by
  obtain ⟨n, rfl⟩ := Nat.exists_eq_add_one_of_ne_zero (by omega : n ≠ 0)
  induction l generalizing n with
  | nil => exact absurd rfl hne
  | cons e l ih =>
    have he := hs e List.mem_cons_self
    have hread := h e List.mem_cons_self
    cases l with
    | nil =>
      rw [List.map_cons, List.map_nil, commaSeparated, List.intercalate_singleton] at hn ⊢
      simp only [pairText, List.length_append, List.length_cons] at hn
      obtain ⟨i, hi, hlast⟩ := (exists_readPairs hd he hread (by omega : _ ≤ n) rest).2
      exact ⟨[(e.1, i)], hlast, .cons ⟨rfl, hi⟩ .nil⟩
    | cons f l =>
      rw [List.map_cons, List.map_cons, commaSeparated, List.intercalate_cons_cons,
        ← List.map_cons] at hn ⊢
      simp only [List.length_append, List.length_cons, List.length_nil] at hn
      have hlength : (valueText e.2).length ≤ (pairText e).length := by simp [pairText]; omega
      have hpos := length_valueText_pos he
      obtain ⟨n, rfl⟩ := Nat.exists_eq_add_one_of_ne_zero (by omega : n ≠ 0)
      obtain ⟨its, hits, hstands⟩ := ih (by simp) (fun e hmem => hs e (List.mem_cons_of_mem _ hmem))
        (fun e hmem => h e (List.mem_cons_of_mem _ hmem)) n (by rw [commaSeparated]; omega)
      obtain ⟨i, hi, hnext⟩ := (exists_readPairs hd he hread (by omega : _ ≤ n + 1)
        (' ' :: (commaSeparated ((f :: l).map pairText) ++ ' ' :: '\x7d' :: rest))).1
      refine ⟨(e.1, i) :: its, ?_, .cons ⟨rfl, hi⟩ hstands⟩
      rw [readPairs_blank, hits] at hnext
      simpa [commaSeparated] using hnext

/-- Pairs with different keys stand in a table in their order. -/
lemma inlineTable?_eq (h : (its.map Prod.fst).Nodup) :
    inlineTable? d (its.map fun i => ([i.1], i.2)) = some (.inline false its) := by
  have hrun : ∀ (front : Items), ((front ++ its).map Prod.fst).Nodup →
      (its.map fun i => ([i.1], i.2)).foldlM (fun es p => assignInline d p.2 p.1 es) front
        = some (front ++ its) := by
    clear h
    induction its with
    | nil => simp
    | cons i its ih =>
      intro front h
      have hnew : i.1 ∉ front.map Prod.fst := by
        rw [List.map_append, List.map_cons] at h
        exact fun hmem => (List.nodup_append.mp h).2.2 _ hmem _ List.mem_cons_self rfl
      have hassign : assignInline d i.2 [i.1] front = some (front ++ [i]) := by
        rw [assignInline, lookup?_eq_none hnew, put_of_notMem hnew]
        rfl
      rw [List.map_cons, List.foldlM_cons, hassign]
      simpa using ih (front ++ [i]) (by simpa using h)
  rw [inlineTable?, hrun [] h]
  rfl

/-- **A table between braces is read as it was written.** -/
lemma Value.IsRead.table (hd : d.allows 1 = true) (hs : ∀ e ∈ es, e.2.isSimple = true)
    (h : ∀ e ∈ es, e.2.IsRead d (depth + 1)) (hes : Sorted es)
    (hdepth : d.allows (depth + 1) = true) (hdate : d.takesForDate (ranked es) = false) :
    (Value.table es).IsRead d depth := by
  intro n rest hn hrest
  have hperm := ranked_perm es
  rw [valueText, ranked_pairTexts] at hn ⊢
  rcases hnil : ranked es with _ | ⟨e, l⟩
  · rw [hnil] at hn hdate
    obtain rfl : es = [] := List.nil_perm.mp (hnil ▸ hperm)
    obtain ⟨n, rfl⟩ := Nat.exists_eq_add_one_of_ne_zero
      (by simp [braced] at hn; omega : n ≠ 0)
    refine ⟨.inline false [], ?_, rfl⟩
    show readItem d (n + 1) depth ('\x7b' :: '\x7d' :: rest) = _
    rw [readItem, if_pos hdepth, skipBlanks_of_not_blank (by decide)]
    rfl
  · have hne : ranked es ≠ [] := by simp [hnil]
    have hmem : ∀ e ∈ ranked es, e ∈ es := fun e he => hperm.mem_iff.mp he
    have hbraced : braced ((ranked es).map pairText)
        = '\x7b' :: ' ' :: commaSeparated ((ranked es).map pairText) ++ [' ', '\x7d'] := by
      rw [hnil, List.map_cons, braced]
      simp
    rw [hbraced] at hn
    rw [← hnil, hbraced]
    simp only [List.length_cons, List.length_append, List.length_nil] at hn
    obtain ⟨n, rfl⟩ := Nat.exists_eq_add_one_of_ne_zero (by omega : n ≠ 0)
    obtain ⟨its, hits, hstands⟩ := readPairs_pairTexts hd hne (fun e he => hs e (hmem e he))
      (fun e he => h e (hmem e he))
      (by omega : (commaSeparated ((ranked es).map pairText)).length < n) rest
    have hnodup : (its.map Prod.fst).Nodup := by
      rw [hstands.keys_eq]
      exact (hperm.map Prod.fst).nodup_iff.mpr hes.nodup
    refine ⟨.inline false its, ?_, ?_⟩
    · obtain ⟨c, r, hcs, hblank, hc⟩ := exists_keyText_plain e.1
      obtain ⟨r', htext⟩ : ∃ r', commaSeparated ((ranked es).map pairText) = c :: r' := by
        rw [hnil, commaSeparated, List.map_cons]
        cases l with
        | nil => exact ⟨_, by rw [List.map_nil, List.intercalate_singleton, pairText, hcs]; rfl⟩
        | cons f l =>
          exact ⟨_, by rw [List.map_cons, List.intercalate_cons_cons, pairText, hcs]; rfl⟩
      show readItem d (n + 1) depth ('\x7b' :: ' ' :: ((commaSeparated ((ranked es).map pairText)
        ++ [' ', '\x7d']) ++ rest)) = _
      rw [List.append_assoc, List.cons_append, List.singleton_append, readItem, if_pos hdepth,
        skipBlanks_blank]
      rw [htext, List.cons_append] at hits ⊢
      rw [skipBlanks_of_not_blank hblank]
      split
      · simp_all
      · rw [hits]
        simp [inlineTable?_eq hnodup]
    · rw [Item.value?]
      exact hstands.tableValue?_eq hdate hperm hes

/-! ### All values -/

/-- **A value on a line is read as it was written**, if it is legible. -/
theorem Value.Orderly.isRead (hv : v.Orderly) (hd : d.allows 1 = true) (hs : v.isSimple = true)
    (hl : v.isLegible d depth = true) : v.IsRead d depth := by
  induction hv generalizing depth with
  | string s =>
    refine .of_readScalar ?_ fun rest hrest => readScalar_stringText s hrest
    obtain ⟨c, l, hcs, rfl | rfl⟩ := exists_stringText s
    · exact ⟨_, l, hcs, by decide, by decide⟩
    · exact ⟨_, l, hcs, by decide, by decide⟩
  | @integer i hi =>
    refine .of_readScalar ?_ fun rest hrest => readScalar_integerText hi hrest
    obtain ⟨c, l, hcs, rfl | hc⟩ := exists_integerText i
    · exact ⟨_, l, hcs, by decide, by decide⟩
    · exact ⟨c, l, hcs, ne_of_isDigit hc (by decide), ne_of_isDigit hc (by decide)⟩
  | boolean b =>
    refine .of_readScalar ?_ fun rest _ => readScalar_boolean b rest
    cases b <;> exact ⟨_, _, rfl, by decide, by decide⟩
  | float f => simp [Value.isSimple] at hs
  | moment m => simp [Value.isSimple] at hs
  | array _ ih =>
    rw [Value.isSimple, areSimple_iff] at hs
    rw [Value.isLegible, Bool.and_eq_true, areLegible_iff] at hl
    exact .array hs (fun v hmem => ih v hmem (hs v hmem) (hl.2 v hmem)) hl.1
  | table sorted _ ih =>
    rw [Value.isSimple, entriesAreSimple_iff] at hs
    rw [Value.isLegible, Bool.and_eq_true, Bool.and_eq_true, entriesAreLegible_iff,
      Bool.not_eq_true'] at hl
    exact .table hd hs (fun e hmem => ih e hmem (hs e hmem) (hl.2 e hmem)) sorted hl.1.1 hl.1.2

end DeployClient.Toml
