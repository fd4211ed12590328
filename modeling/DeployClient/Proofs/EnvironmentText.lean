import DeployClient.Proofs.ClosingQuotes
import Mathlib.Data.List.Basic
import Mathlib.Data.List.TakeWhile

/-!
What the text of a variable spells.

Some texts show where they end: truth values, quoted strings, arrays and tables. Any other text is
a word, which goes on to the next separator. The reader follows this grammar. By induction on how
much it may use, what it has read is spelt by what it has taken; and what is spelt is read, if there
is enough for three steps to every character. So the value of a variable is what its text spells, or
else the text itself.
-/

namespace DeployClient.Settings

open Toml (Value Entries)

variable {n : ℕ} {c : Char} {cs rest gap text body : List Char} {k : String} {v : Value}
  {vs : List Value} {ps es : Entries}

/-! ### Spelling -/

/-- Blanks, as they may stand around a value. -/
def Blanks (gap : List Char) : Prop := ∀ c ∈ gap, isAsciiBlank c = true

def truthText (b : Bool) : List Char := (if b then "true" else "false").toList

/-- A key with blanks around it, which is bare or quoted. -/
inductive SpellsKey : List Char → String → Prop
  | bare {gap key gap' : List Char} (hgap : Blanks gap) (hne : key ≠ [])
      (h : ∀ c ∈ key, isKeyChar c = true) (hgap' : Blanks gap') :
      SpellsKey (gap ++ key ++ gap') (String.ofList key)
  | quoted {gap key gap' : List Char} {k : String} (hgap : Blanks gap) (h : IsQuoted key k)
      (hgap' : Blanks gap') : SpellsKey (gap ++ key ++ gap') k

/-- A text up to the next separator that does not begin as something else does. -/
structure IsWord (word : List Char) : Prop where
  plain : ∀ c ∈ word, isSeparator c = false
  start : ∀ c ∈ word.head?, isAsciiBlank c = false ∧ c ≠ '"' ∧ c ≠ '\''
  not_boolean : ∀ b : Bool, ¬ truthText b <+: word

mutual

/-- A text that shows where it ends. -/
inductive Closed : List Char → Value → Prop
  | boolean (b : Bool) : Closed (truthText b) (.boolean b)
  | quoted {text : List Char} {s : String} (h : IsQuoted text s) : Closed text (.string s)
  | character (c : Char) : Closed ['\'', c, '\''] (.string (String.singleton c))
  | array {body : List Char} {vs : List Value} (h : Elements body vs) :
      Closed ('[' :: body) (.array vs)
  | table {body : List Char} {ps : Entries} (h : Pairs body ps) :
      Closed ('\x7b' :: body) (.table (ps.foldl (fun es p => Toml.insert p.1 p.2 es) []))

/-- A value with blanks around it. -/
inductive Spells : List Char → Value → Prop
  | closed {gap text gap' : List Char} {v : Value} (hgap : Blanks gap) (h : Closed text v)
      (hgap' : Blanks gap') : Spells (gap ++ text ++ gap') v
  | word {gap word : List Char} (hgap : Blanks gap) (h : IsWord word) :
      Spells (gap ++ word) (wordValue word)

/-- The values of an array, up to its bracket. -/
inductive Elements : List Char → List Value → Prop
  | close : Elements [']'] []
  | last {text : List Char} {v : Value} (hne : text ≠ []) (h : Spells text v) :
      Elements (text ++ [']']) [v]
  | more {text rest : List Char} {v : Value} {vs : List Value} (h : Spells text v)
      (hrest : Elements rest vs) : Elements (text ++ ',' :: rest) (v :: vs)

/-- The entries of a table, up to its brace. -/
inductive Pairs : List Char → Entries → Prop
  | close : Pairs ['\x7d'] []
  | last {key text : List Char} {k : String} {v : Value} (hkey : SpellsKey key k)
      (h : Spells text v) : Pairs (key ++ '=' :: (text ++ ['\x7d'])) [(k, v)]
  | more {key text rest : List Char} {k : String} {v : Value} {ps : Entries}
      (hkey : SpellsKey key k) (h : Spells text v) (hrest : Pairs rest ps) :
      Pairs (key ++ '=' :: (text ++ ',' :: rest)) ((k, v) :: ps)

end

/-! ### Blanks -/

/-- What stands there does not go on with a blank. -/
def Begins (cs : List Char) : Prop := ∀ c ∈ cs.head?, isAsciiBlank c = false

/-- Nothing is left, or what comes is no further part of a value. -/
def Ends (rest : List Char) : Prop := ∀ c ∈ rest.head?, c ∈ [',', ']', '\x7d']

lemma Ends.separates (h : Ends rest) : ∀ c ∈ rest.head?, isSeparator c = true := by
  intro c hc
  have hmem := h c hc
  simp only [List.mem_cons, List.not_mem_nil, or_false] at hmem
  rcases hmem with rfl | rfl | rfl
  all_goals rfl

lemma begins_of_isSeparator (h : ∀ c ∈ rest.head?, isSeparator c = true) : Begins rest := by
  intro c hc
  have hsep := h c hc
  simp only [isSeparator, List.contains_eq_mem, List.mem_cons, List.not_mem_nil, or_false,
    decide_eq_true_eq] at hsep
  rcases hsep with rfl | rfl | rfl | rfl | rfl
  all_goals decide

lemma Ends.begins (h : Ends rest) : Begins rest := begins_of_isSeparator h.separates

lemma takeWhile_append_of_head {p : Char → Bool} (hcs : ∀ c ∈ cs, p c = true)
    (hrest : ∀ c ∈ rest.head?, p c = false) :
    (cs ++ rest).takeWhile p = cs ∧ (cs ++ rest).dropWhile p = rest := by
  rw [List.takeWhile_append_of_pos hcs, List.dropWhile_append_of_pos hcs]
  cases rest with
  | nil => simp
  | cons c rest => simp [hrest c rfl]

lemma skip_append (hgap : Blanks gap) (h : Begins cs) : skip (gap ++ cs) = cs :=
  (takeWhile_append_of_head hgap h).2

lemma skip_of_begins (h : Begins cs) : skip cs = cs := by
  have hgap : Blanks [] := by simp [Blanks]
  exact skip_append hgap h

lemma exists_blanks (cs : List Char) :
    ∃ gap, Blanks gap ∧ gap ++ skip cs = cs ∧ Begins (skip cs) := by
  refine ⟨cs.takeWhile isAsciiBlank, fun c hc => List.mem_takeWhile_imp hc,
    List.takeWhile_append_dropWhile, fun c hc => ?_⟩
  have hhead := List.head?_dropWhile_not isAsciiBlank cs
  rw [skip] at hc
  rw [hc] at hhead
  simpa using hhead

/-! ### What is read is spelt -/

/-- The key that is read and the blanks around it are spelt before what is left. -/
lemma spellsKey_of_readKey {r : List Char} (h : readKey (skip cs) = some (k, r)) :
    ∃ key, SpellsKey key k ∧ key ++ skip r = cs := by
  obtain ⟨gap, hgap, hcs, -⟩ := exists_blanks cs
  obtain ⟨gap', hgap', hr, -⟩ := exists_blanks r
  unfold readKey at h
  split at h
  · obtain ⟨key, hsplit, hkey⟩ := readQuoted_eq_some_iff.mp h
    refine ⟨_, .quoted hgap hkey hgap', ?_⟩
    rw [List.append_assoc, hr, List.append_assoc, hsplit, hcs]
  · simp only at h
    split at h
    · simp at h
    · next hne =>
      obtain ⟨rfl, rfl⟩ := Prod.mk.inj (Option.some.inj h)
      refine ⟨_, .bare hgap (by simpa using hne) (fun c hc => List.mem_takeWhile_imp hc) hgap', ?_⟩
      rw [List.append_assoc, hr, List.append_assoc, List.takeWhile_append_dropWhile, hcs]

lemma isPrefixOf?_eq_none_iff {xs ys : List Char} : xs.isPrefixOf? ys = none ↔ ¬ xs <+: ys := by
  constructor
  · rintro h ⟨zs, hzs⟩
    rw [List.isPrefixOf?_eq_some_iff_append_eq.mpr hzs] at h
    simp at h
  · intro h
    cases hread : xs.isPrefixOf? ys with
    | none => rfl
    | some zs => exact absurd ⟨zs, List.isPrefixOf?_eq_some_iff_append_eq.mp hread⟩ h

/-- What is read of a text, and stands before what is left, is spelt there. -/
structure Sound (n : ℕ) : Prop where
  core : ∀ {cs v rest}, Begins cs → readCore n cs = some (v, rest) →
    ∃ text, text ++ rest = cs ∧ (Closed text v ∨ IsWord text ∧ v = wordValue text ∧ Begins rest)
  value : ∀ {cs v rest}, readValue n cs = some (v, rest) →
    ∃ text, text ++ rest = cs ∧ Spells text v
  elements : ∀ {cs vs rest}, readElements n cs = some (vs, rest) →
    ∃ body, body ++ rest = cs ∧ Elements body vs
  pairs : ∀ {es cs es' rest}, readPairs n es cs = some (es', rest) →
    ∃ body ps, body ++ rest = cs ∧ Pairs body ps
      ∧ es' = ps.foldl (fun es p => Toml.insert p.1 p.2 es) es

namespace Sound

lemma zero : Sound 0 where
  core _ h := by simp [readCore] at h
  value h := by simp [readValue] at h
  elements h := by simp [readElements] at h
  pairs h := by simp [readPairs] at h

lemma value_succ (ih : Sound n) (h : readValue (n + 1) cs = some (v, rest)) :
    ∃ text, text ++ rest = cs ∧ Spells text v := by
  rw [readValue] at h
  obtain ⟨⟨v', r⟩, hcore, heq⟩ := Option.map_eq_some_iff.mp h
  obtain ⟨rfl, rfl⟩ := Prod.mk.inj heq
  obtain ⟨gap, hgap, hcs, hbegins⟩ := exists_blanks cs
  obtain ⟨gap', hgap', hr, -⟩ := exists_blanks r
  obtain ⟨text, hsplit, htext | ⟨hword, rfl, hrest⟩⟩ := ih.core hbegins hcore
  · refine ⟨_, ?_, .closed hgap htext hgap'⟩
    rw [List.append_assoc, hr, List.append_assoc, hsplit, hcs]
  · refine ⟨_, ?_, .word hgap hword⟩
    rw [skip_of_begins hrest, List.append_assoc, hsplit, hcs]

/-- The reading of a word. -/
lemma isWord_takeWhile (hbegins : Begins cs) (hboolean : ∀ b : Bool, ¬ truthText b <+: cs)
    (hquote : ∀ r, cs ≠ '"' :: r) (hapostrophe : ∀ r, cs ≠ '\'' :: r) :
    IsWord (cs.takeWhile fun c => !isSeparator c)
      ∧ Begins (cs.dropWhile fun c => !isSeparator c) := by
  refine ⟨⟨fun c hc => by simpa using List.mem_takeWhile_imp hc, fun c hc => ?_, fun b hb => ?_⟩,
    begins_of_isSeparator fun c hc => ?_⟩
  · have hhead : cs.head? = some c := by
      rw [List.head?_takeWhile] at hc
      exact (Option.filter_eq_some_iff.mp hc).1
    refine ⟨hbegins c hhead, ?_, ?_⟩
    · rintro rfl
      exact hquote _ (List.eq_cons_of_mem_head? (Option.mem_def.mpr hhead))
    · rintro rfl
      exact hapostrophe _ (List.eq_cons_of_mem_head? (Option.mem_def.mpr hhead))
  · exact hboolean b (hb.trans (List.takeWhile_prefix _))
  · have hhead := List.head?_dropWhile_not (fun c => !isSeparator c) cs
    rw [hc] at hhead
    simpa using hhead

lemma core_succ (ih : Sound n) (hbegins : Begins cs) (h : readCore (n + 1) cs = some (v, rest)) :
    ∃ text, text ++ rest = cs
      ∧ (Closed text v ∨ IsWord text ∧ v = wordValue text ∧ Begins rest) := by
  rw [readCore.eq_def] at h
  dsimp only at h
  split at h
  · next r _ htrue =>
    obtain ⟨rfl, rfl⟩ := Prod.mk.inj (Option.some.inj h)
    exact ⟨_, List.isPrefixOf?_eq_some_iff_append_eq.mp htrue, .inl (.boolean true)⟩
  · next r htrue hfalse =>
    obtain ⟨rfl, rfl⟩ := Prod.mk.inj (Option.some.inj h)
    exact ⟨_, List.isPrefixOf?_eq_some_iff_append_eq.mp hfalse, .inl (.boolean false)⟩
  · next htrue hfalse =>
    split at h
    · next r =>
      obtain ⟨⟨es, r'⟩, hpairs, heq⟩ := Option.map_eq_some_iff.mp h
      obtain ⟨rfl, rfl⟩ := Prod.mk.inj heq
      obtain ⟨body, ps, rfl, hbody, rfl⟩ := ih.pairs hpairs
      exact ⟨_, rfl, .inl (.table hbody)⟩
    · next r =>
      obtain ⟨⟨vs, r'⟩, helements, heq⟩ := Option.map_eq_some_iff.mp h
      obtain ⟨rfl, rfl⟩ := Prod.mk.inj heq
      obtain ⟨body, rfl, hbody⟩ := ih.elements helements
      exact ⟨_, rfl, .inl (.array hbody)⟩
    · next r =>
      obtain ⟨⟨s, r'⟩, hquoted, heq⟩ := Option.map_eq_some_iff.mp h
      obtain ⟨rfl, rfl⟩ := Prod.mk.inj heq
      obtain ⟨text, hsplit, htext⟩ := readQuoted_eq_some_iff.mp hquoted
      exact ⟨text, hsplit, .inl (.quoted htext)⟩
    · next d r =>
      obtain ⟨rfl, rfl⟩ := Prod.mk.inj (Option.some.inj h)
      exact ⟨_, rfl, .inl (.character d)⟩
    · simp at h
    · next hbrace hbracket hquote hcharacter hapostrophe =>
      obtain ⟨rfl, rfl⟩ := Prod.mk.inj (Option.some.inj h)
      obtain ⟨hword, hrest⟩ := isWord_takeWhile hbegins
        (Bool.rec (isPrefixOf?_eq_none_iff.mp hfalse) (isPrefixOf?_eq_none_iff.mp htrue))
        hquote hapostrophe
      exact ⟨_, List.takeWhile_append_dropWhile, .inr ⟨hword, rfl, hrest⟩⟩

lemma elements_succ (ih : Sound n) (h : readElements (n + 1) cs = some (vs, rest)) :
    ∃ body, body ++ rest = cs ∧ Elements body vs := by
  rw [readElements.eq_def] at h
  dsimp only at h
  split at h
  · next r =>
    obtain ⟨rfl, rfl⟩ := Prod.mk.inj (Option.some.inj h)
    exact ⟨_, rfl, .close⟩
  · next hclose =>
    split at h
    · next w r hread =>
      obtain ⟨⟨ws, r'⟩, hrest, heq⟩ := Option.map_eq_some_iff.mp h
      obtain ⟨rfl, rfl⟩ := Prod.mk.inj heq
      obtain ⟨text, rfl, htext⟩ := ih.value hread
      obtain ⟨body, rfl, hbody⟩ := ih.elements hrest
      exact ⟨_, by simp, .more htext hbody⟩
    · next w r hread =>
      obtain ⟨rfl, rfl⟩ := Prod.mk.inj (Option.some.inj h)
      obtain ⟨text, rfl, htext⟩ := ih.value hread
      have hne : text ≠ [] := by
        rintro rfl
        exact hclose r rfl
      exact ⟨_, by simp, .last hne htext⟩
    · simp at h

lemma pairs_succ {es' : Entries} (ih : Sound n)
    (h : readPairs (n + 1) es cs = some (es', rest)) :
    ∃ body ps, body ++ rest = cs ∧ Pairs body ps
      ∧ es' = ps.foldl (fun es p => Toml.insert p.1 p.2 es) es := by
  rw [readPairs.eq_def] at h
  dsimp only at h
  split at h
  · next r =>
    obtain ⟨rfl, rfl⟩ := Prod.mk.inj (Option.some.inj h)
    exact ⟨_, [], rfl, .close, rfl⟩
  · split at h
    · simp at h
    · next k r hread =>
      obtain ⟨key, hkey, rfl⟩ := spellsKey_of_readKey hread
      split at h
      · next r' hequals =>
        rw [hequals]
        split at h
        · next w r'' hread =>
          obtain ⟨text, rfl, htext⟩ := ih.value hread
          obtain ⟨body, ps, rfl, hbody, rfl⟩ := ih.pairs h
          exact ⟨_, (k, w) :: ps, by simp, .more hkey htext hbody, rfl⟩
        · next w r'' hread =>
          obtain ⟨rfl, rfl⟩ := Prod.mk.inj (Option.some.inj h)
          obtain ⟨text, rfl, htext⟩ := ih.value hread
          exact ⟨_, [(k, w)], by simp, .last hkey htext, rfl⟩
        · simp at h
      · simp at h

end Sound

lemma sound : ∀ n, Sound n
  | 0 => .zero
  | n + 1 =>
    have ih := sound n
    ⟨ih.core_succ, ih.value_succ, ih.elements_succ, ih.pairs_succ⟩

/-! ### What is spelt is read -/

lemma IsWord.takeWhile_append {word : List Char} (h : IsWord word) (hends : Ends rest) :
    ((word ++ rest).takeWhile fun c => !isSeparator c) = word
      ∧ ((word ++ rest).dropWhile fun c => !isSeparator c) = rest :=
  takeWhile_append_of_head (fun c hc => by simp [h.plain c hc])
    fun c hc => by simp [hends.separates c hc]

/-- No truth value comes about by what is put after a word. -/
lemma IsWord.not_boolean_append {word : List Char} (h : IsWord word) (hends : Ends rest)
    (b : Bool) : ¬ truthText b <+: word ++ rest := by
  intro hb
  have htruth : ∀ c ∈ truthText b, (!isSeparator c) = true :=
    List.all_eq_true.mp (by cases b <;> decide)
  obtain ⟨more, hmore⟩ := hb
  have htake := (h.takeWhile_append hends).1
  rw [← hmore, List.takeWhile_append_of_pos htruth] at htake
  exact h.not_boolean b ⟨_, htake⟩

lemma IsWord.append_ne {word r : List Char} {d : Char} (h : IsWord word) (hends : Ends rest)
    (hd : d ∈ ['\x7b', '[', '"', '\'']) : word ++ rest ≠ d :: r := by
  intro heq
  cases word with
  | nil =>
    have hmem := hends d (by rw [← List.nil_append rest, heq]; rfl)
    simp only [List.mem_cons, List.not_mem_nil, or_false] at hmem
    rcases hmem with rfl | rfl | rfl
    all_goals simp at hd
  | cons c word =>
    obtain rfl := (List.cons.inj heq).1
    have hsep := h.plain c List.mem_cons_self
    obtain ⟨-, hquote, hapostrophe⟩ := h.start c rfl
    simp only [List.mem_cons, List.not_mem_nil, or_false, hquote, hapostrophe] at hd
    rcases hd with rfl | rfl
    all_goals simp [isSeparator] at hsep

lemma readCore_word {word : List Char} (h : IsWord word) (hends : Ends rest) :
    readCore (n + 1) (word ++ rest) = some (wordValue word, rest) := by
  have htrue := isPrefixOf?_eq_none_iff.mpr (h.not_boolean_append hends true)
  have hfalse := isPrefixOf?_eq_none_iff.mpr (h.not_boolean_append hends false)
  obtain ⟨htake, hdrop⟩ := h.takeWhile_append hends
  rw [readCore.eq_def]
  change "true".toList.isPrefixOf? _ = none at htrue
  change "false".toList.isPrefixOf? _ = none at hfalse
  simp only [htrue, hfalse]
  split
  · next hcs => exact absurd hcs (h.append_ne hends (by decide))
  · next hcs => exact absurd hcs (h.append_ne hends (by decide))
  · next hcs => exact absurd hcs (h.append_ne hends (by decide))
  · next hcs => exact absurd hcs (h.append_ne hends (by decide))
  · next hcs => exact absurd hcs (h.append_ne hends (by decide))
  · rw [htake, hdrop]

lemma readCore_truthText (b : Bool) (rest : List Char) :
    readCore (n + 1) (truthText b ++ rest) = some (.boolean b, rest) := by
  have htext : (truthText b).isPrefixOf? (truthText b ++ rest) = some rest :=
    List.isPrefixOf?_eq_some_iff_append_eq.mpr rfl
  rw [readCore.eq_def]
  cases b with
  | true =>
    change "true".toList.isPrefixOf? _ = _ at htext
    simp only [htext]
  | false =>
    have htrue : "true".toList.isPrefixOf? (truthText false ++ rest) = none := rfl
    change "false".toList.isPrefixOf? _ = _ at htext
    simp only [htrue, htext]

lemma Elements.length_pos (h : Elements body vs) : 0 < body.length := by
  cases h
  all_goals
    simp only [List.length_append, List.length_cons]
    omega

lemma Pairs.length_pos (h : Pairs body ps) : 0 < body.length := by
  cases h
  all_goals
    simp only [List.length_append, List.length_cons]
    omega

/-- What is spelt is read with this much, if the text is short enough for it. -/
structure Complete (n : ℕ) : Prop where
  core : ∀ {text v}, Closed text v → 3 * text.length + 1 ≤ n →
    ∀ rest, readCore n (text ++ rest) = some (v, rest)
  value : ∀ {text v}, Spells text v → 3 * text.length + 2 ≤ n →
    ∀ rest, Ends rest → readValue n (text ++ rest) = some (v, rest)
  elements : ∀ {body vs}, Elements body vs → 3 * body.length ≤ n →
    ∀ rest, readElements n (body ++ rest) = some (vs, rest)
  pairs : ∀ {body ps}, Pairs body ps → 3 * body.length ≤ n →
    ∀ es rest, readPairs n es (body ++ rest)
      = some (ps.foldl (fun es p => Toml.insert p.1 p.2 es) es, rest)

lemma Closed.exists_head (h : Closed text v) :
    ∃ c r, text = c :: r ∧ c ∈ ['t', 'f', '"', '\'', '[', '\x7b'] := by
  cases h with
  | boolean b =>
    cases b
    all_goals exact ⟨_, _, rfl, by decide⟩
  | quoted h =>
    obtain ⟨⟩ := h
    exact ⟨_, _, rfl, by decide⟩
  | character d => exact ⟨_, _, rfl, by decide⟩
  | array h => exact ⟨_, _, rfl, by decide⟩
  | table h => exact ⟨_, _, rfl, by decide⟩

lemma Closed.begins (h : Closed text v) (rest : List Char) : Begins (text ++ rest) := by
  obtain ⟨c, r, rfl, hmem⟩ := h.exists_head
  intro d hd
  obtain rfl := Option.some.inj hd
  have hmarks : ['t', 'f', '"', '\'', '[', '\x7b'].all (fun c => !isAsciiBlank c) = true := by
    decide
  simpa using List.all_eq_true.mp hmarks c hmem

lemma IsWord.begins {word : List Char} (h : IsWord word) (hends : Ends rest) :
    Begins (word ++ rest) := by
  cases word with
  | nil => exact hends.begins
  | cons c word => exact fun d hd => (h.start d hd).1

/-- The text of a value is not mistaken for the end of an array. -/
lemma Spells.append_ne {r : List Char} (h : Spells text v)
    (hrest : text = [] → rest.head? ≠ some ']') : text ++ rest ≠ ']' :: r := by
  intro heq
  cases h with
  | @closed gap text gap' v hgap h hgap' =>
    obtain ⟨c, t, rfl, hmem⟩ := h.exists_head
    cases gap with
    | nil =>
      obtain rfl := (List.cons.inj heq).1
      simp at hmem
    | cons d gap =>
      obtain rfl := (List.cons.inj heq).1
      simp [Blanks, isAsciiBlank] at hgap
  | @word gap word hgap h =>
    cases gap with
    | nil =>
      cases word with
      | nil => exact hrest rfl (congrArg List.head? heq)
      | cons d word =>
        obtain rfl := (List.cons.inj heq).1
        simpa [isSeparator] using h.plain ']' List.mem_cons_self
    | cons d gap =>
      obtain rfl := (List.cons.inj heq).1
      simp [Blanks, isAsciiBlank] at hgap

lemma isKeyChar_of_isAsciiBlank (h : isAsciiBlank c = true) : isKeyChar c = false := by
  simp only [isAsciiBlank, Bool.or_eq_true, decide_eq_true_eq] at h
  rcases h with (((rfl | rfl) | rfl) | rfl) | rfl
  all_goals decide

/-- A key is not mistaken for the end of a table. -/
lemma SpellsKey.append_ne {key r : List Char} (h : SpellsKey key k) :
    key ++ rest ≠ '\x7d' :: r := by
  intro heq
  cases h with
  | @bare gap key gap' hgap hne h hgap' =>
    cases gap with
    | nil =>
      obtain ⟨c, t, rfl⟩ := List.exists_cons_of_ne_nil hne
      obtain rfl := (List.cons.inj heq).1
      exact absurd (h _ List.mem_cons_self) (by decide)
    | cons d gap =>
      obtain rfl := (List.cons.inj heq).1
      simp [Blanks, isAsciiBlank] at hgap
  | @quoted gap key gap' k hgap h hgap' =>
    obtain ⟨⟩ := h
    cases gap with
    | nil => simp at heq
    | cons d gap =>
      obtain rfl := (List.cons.inj heq).1
      simp [Blanks, isAsciiBlank] at hgap

/-- A key is read up to the equals sign. -/
lemma readKey_of_spellsKey {key : List Char} (h : SpellsKey key k) (rest : List Char) :
    ∃ r, readKey (skip (key ++ '=' :: rest)) = some (k, r) ∧ skip r = '=' :: rest := by
  have hequals : Begins ('=' :: rest) := by
    intro c hc
    obtain rfl := Option.some.inj hc
    decide
  cases h with
  | @bare gap key gap' hgap hne h hgap' =>
    refine ⟨gap' ++ '=' :: rest, ?_, skip_append hgap' hequals⟩
    have hstop : ∀ c ∈ (gap' ++ '=' :: rest).head?, isKeyChar c = false := by
      cases gap' with
      | nil =>
        intro c hc
        obtain rfl := Option.some.inj hc
        decide
      | cons d gap' =>
        intro c hc
        obtain rfl := Option.some.inj hc
        exact isKeyChar_of_isAsciiBlank (hgap' _ List.mem_cons_self)
    obtain ⟨htake, hdrop⟩ := takeWhile_append_of_head h hstop
    obtain ⟨d, key, rfl⟩ := List.exists_cons_of_ne_nil hne
    have hd := h d List.mem_cons_self
    have hbegins : Begins (d :: key ++ (gap' ++ '=' :: rest)) := by
      intro c hc
      obtain rfl := Option.some.inj hc
      by_contra hblank
      rw [isKeyChar_of_isAsciiBlank (by simpa using hblank)] at hd
      exact absurd hd (by decide)
    rw [List.append_assoc, List.append_assoc, skip_append hgap hbegins, readKey.eq_def]
    split
    · next heq =>
      obtain rfl := (List.cons.inj heq).1
      exact absurd hd (by decide)
    · simp only [htake, hdrop, List.isEmpty_cons, Bool.false_eq_true, if_false]
  | @quoted gap key gap' k hgap h hgap' =>
    refine ⟨gap' ++ '=' :: rest, ?_, skip_append hgap' hequals⟩
    have hread : readQuoted (key ++ (gap' ++ '=' :: rest)) = some (k, gap' ++ '=' :: rest) :=
      readQuoted_eq_some_iff.mpr ⟨key, rfl, h⟩
    obtain ⟨⟩ := h
    rw [List.append_assoc, List.append_assoc, skip_append hgap]
    · exact hread
    · intro c hc
      obtain rfl := Option.some.inj hc
      decide

namespace Complete

lemma zero : Complete 0 where
  core _ hn := absurd hn (by omega)
  value _ hn := absurd hn (by omega)
  elements h hn := by
    have hlength := h.length_pos
    omega
  pairs h hn := by
    have hlength := h.length_pos
    omega

lemma core_succ (ih : Complete n) (h : Closed text v) (hn : 3 * text.length + 1 ≤ n + 1)
    (rest : List Char) : readCore (n + 1) (text ++ rest) = some (v, rest) := by
  cases h with
  | boolean b => exact readCore_truthText b rest
  | @quoted text s h =>
    have hread : readQuoted (text ++ rest) = some (s, rest) :=
      readQuoted_eq_some_iff.mpr ⟨text, rfl, h⟩
    obtain ⟨⟩ := h
    exact congrArg (Option.map fun p => (Value.string p.1, p.2)) hread
  | character c => rfl
  | array h =>
    simp only [List.length_cons] at hn
    have hread := ih.elements h (by omega) rest
    exact congrArg (Option.map fun p => (Value.array p.1, p.2)) hread
  | table h =>
    simp only [List.length_cons] at hn
    have hread := ih.pairs h (by omega) [] rest
    exact congrArg (Option.map fun p => (Value.table p.1, p.2)) hread

lemma value_succ (ih : Complete n) (h : Spells text v) (hn : 3 * text.length + 2 ≤ n + 1)
    (rest : List Char) (hends : Ends rest) :
    readValue (n + 1) (text ++ rest) = some (v, rest) := by
  cases h with
  | @closed gap text gap' v hgap h hgap' =>
    simp only [List.length_append] at hn
    rw [readValue, List.append_assoc, List.append_assoc, skip_append hgap (h.begins _),
      ih.core h (by omega), Option.map_some, skip_append hgap' hends.begins]
  | @word gap word hgap h =>
    simp only [List.length_append] at hn
    obtain ⟨m, rfl⟩ : ∃ m, n = m + 1 := ⟨n - 1, by omega⟩
    rw [readValue, List.append_assoc, skip_append hgap (h.begins hends), readCore_word h hends,
      Option.map_some, skip_of_begins hends.begins]

lemma elements_succ (ih : Complete n) (h : Elements body vs) (hn : 3 * body.length ≤ n + 1)
    (rest : List Char) : readElements (n + 1) (body ++ rest) = some (vs, rest) := by
  rw [readElements.eq_def]
  dsimp only
  cases h with
  | close => rfl
  | @last text v hne h =>
    simp only [List.length_append, List.length_singleton] at hn
    have hread := ih.value h (by omega) (']' :: rest) (by simp [Ends])
    rw [List.append_assoc, List.singleton_append]
    split
    · next heq => exact absurd heq (h.append_ne fun h => absurd h hne)
    · simp only [hread]
  | @more text body v vs h hbody =>
    simp only [List.length_append, List.length_cons] at hn
    have hread := ih.value h (by omega) (',' :: (body ++ rest)) (by simp [Ends])
    rw [List.append_assoc, List.cons_append]
    split
    · next heq => exact absurd heq (h.append_ne fun _ => by simp)
    · simp only [hread, ih.elements hbody (by omega), Option.map_some]

lemma pairs_succ (ih : Complete n) (h : Pairs body ps) (hn : 3 * body.length ≤ n + 1)
    (es : Entries) (rest : List Char) : readPairs (n + 1) es (body ++ rest)
      = some (ps.foldl (fun es p => Toml.insert p.1 p.2 es) es, rest) := by
  rw [readPairs.eq_def]
  dsimp only
  cases h with
  | close => rfl
  | @last key text k v hkey h =>
    simp only [List.length_append, List.length_cons, List.length_nil] at hn
    have hread := ih.value h (by omega) ('\x7d' :: rest) (by simp [Ends])
    obtain ⟨r, hkeyRead, hequals⟩ := readKey_of_spellsKey hkey (text ++ '\x7d' :: rest)
    rw [List.append_assoc, List.cons_append, List.append_assoc, List.singleton_append]
    split
    · next heq => exact absurd heq hkey.append_ne
    · simp only [hkeyRead, hequals, hread, List.foldl_cons, List.foldl_nil]
  | @more key text body k v ps hkey h hbody =>
    simp only [List.length_append, List.length_cons] at hn
    have hread := ih.value h (by omega) (',' :: (body ++ rest)) (by simp [Ends])
    obtain ⟨r, hkeyRead, hequals⟩ := readKey_of_spellsKey hkey (text ++ ',' :: (body ++ rest))
    rw [List.append_assoc, List.cons_append, List.append_assoc, List.cons_append]
    split
    · next heq => exact absurd heq hkey.append_ne
    · simp only [hkeyRead, hequals, hread, ih.pairs hbody (by omega), List.foldl_cons]

end Complete

lemma complete : ∀ n, Complete n
  | 0 => .zero
  | n + 1 =>
    have ih := complete n
    ⟨ih.core_succ, ih.value_succ, ih.elements_succ, ih.pairs_succ⟩

/-! ### The value of a variable -/

lemma readValue_eq_some_iff :
    readValue (4 * cs.length + 4) cs = some (v, []) ↔ Spells cs v := by
  constructor
  · intro h
    obtain ⟨text, rfl, htext⟩ := (sound _).value h
    simpa using htext
  · intro h
    have hread := (complete (4 * cs.length + 4)).value h (by omega) [] (by simp [Ends])
    rwa [List.append_nil] at hread

/-- **A variable has the value that its text spells.** -/
theorem valueOf_of_spells {text : String} (h : Spells text.toList v) : valueOf text = v := by
  rw [valueOf]
  simp only [readValue_eq_some_iff.mpr h]

/-- **A text that spells no value stands for itself.** -/
theorem valueOf_of_not_spells {text : String} (h : ∀ v, ¬ Spells text.toList v) :
    valueOf text = .string text := by
  rw [valueOf]
  split
  · next v hread => exact absurd (readValue_eq_some_iff.mp hread) (h v)
  · rfl

end DeployClient.Settings
