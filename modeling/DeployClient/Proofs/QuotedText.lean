import DeployClient.Toml.Printer
import DeployClient.Toml.Reader
import Mathlib.Tactic.Common

/-!
Strings and keys, written and read again.

A string is written with escapes, or as it is if nothing in it asks for one. Either way its
characters are read back one after the other, and the closing quotes are where they should be.
-/

namespace DeployClient.Toml

variable {many : Bool} {c : Char} {cs rest : List Char}

@[simp] lemma Text.cons_some (c : Char) (cs rest : List Char) :
    Text.cons c (some (cs, rest)) = some (c :: cs, rest) := rfl

/-- The characters that end a value where it stands. -/
def Closes (rest : List Char) : Prop := ∀ c ∈ rest.head?, c ∈ [',', ' ', ']', '\n']

lemma closes_cons (h : c ∈ [',', ' ', ']', '\n']) : Closes (c :: rest) := by
  intro d hd
  rw [List.head?_cons, Option.mem_some_iff] at hd
  exact hd ▸ h

/-! ### Escapes -/

lemma hexValue?_hexDigit : ∀ n < 16, hexValue? (hexDigit n) = some n := by decide

lemma scalar?_toNat (c : Char) : scalar? c.toNat = some c := by
  have hvalid : c.toNat.isValidChar := c.valid
  rw [scalar?, if_pos hvalid, Char.ofNat_toNat]

/-- A digit of an escape is read, and further ones are left. -/
lemma readBasic_hex {left value digit : ℕ} (hdigit : digit < 16) (hleft : 1 < left) :
    readBasic many (.hex left value) (hexDigit digit :: rest)
      = readBasic many (.hex (left - 1) (value * 16 + digit)) rest := by
  rw [readBasic, hexValue?_hexDigit digit hdigit]
  simp only [if_neg (Nat.not_le.mpr hleft)]

/-- The last digit of an escape is read. -/
lemma readBasic_hex_last {value digit : ℕ} (hdigit : digit < 16)
    (hvalue : value * 16 + digit = c.toNat) :
    readBasic many (.hex 1 value) (hexDigit digit :: rest)
      = (readBasic many .text rest).cons c := by
  rw [readBasic, hexValue?_hexDigit digit hdigit]
  simp only [Nat.le_refl, if_true, hvalue, scalar?_toNat]

lemma readBasic_unicodeEscape (h : c.toNat < 65536) :
    readBasic many .text (unicodeEscape c.toNat ++ rest) = (readBasic many .text rest).cons c := by
  have hvalue : (((0 * 16 + c.toNat / 4096 % 16) * 16 + c.toNat / 256 % 16) * 16
      + c.toNat / 16 % 16) * 16 + c.toNat % 16 = c.toNat := by omega
  have hu : escape? 'u' = none := by decide
  simp only [unicodeEscape, List.cons_append, List.nil_append]
  rw [readBasic, if_neg (by decide), if_pos rfl, readBasic, hu]
  simp only [if_true]
  rw [readBasic_hex (Nat.mod_lt _ (by decide)) (by decide),
    readBasic_hex (Nat.mod_lt _ (by decide)) (by decide),
    readBasic_hex (Nat.mod_lt _ (by decide)) (by decide)]
  exact readBasic_hex_last (Nat.mod_lt _ (by decide)) hvalue

/-- An escape with one letter is read. -/
lemma readBasic_escape {letter : Char} (h : escape? letter = some c) :
    readBasic many .text ('\\' :: letter :: rest) = (readBasic many .text rest).cons c := by
  rw [readBasic, if_neg (by decide), if_pos rfl, readBasic, h]

lemma isPlain_of_not_control (h : ¬(c < ' ' ∨ c = '\x7f')) : isPlain c = true := by
  have hle : ' ' ≤ c := Char.not_lt.mp fun hlt => h (.inl hlt)
  have hne : c ≠ '\x7f' := fun heq => h (.inr heq)
  simp [isPlain, hle, hne]

/-- **A character is read as it was written.** -/
theorem readBasic_escaped (many : Bool) (c : Char) (rest : List Char) :
    readBasic many .text (escaped many c ++ rest) = (readBasic many .text rest).cons c := by
  unfold escaped
  split
  · next hc =>
    subst hc
    cases many with
    | false => exact readBasic_escape rfl
    | true =>
      rw [if_pos rfl, List.singleton_append, readBasic]
      simp
  split
  · next hc =>
    subst hc
    exact readBasic_escape rfl
  split
  · next hc =>
    subst hc
    exact readBasic_escape rfl
  split
  · next hc =>
    subst hc
    exact readBasic_escape rfl
  split
  · next hc =>
    subst hc
    exact readBasic_escape rfl
  split
  · next hc =>
    subst hc
    exact readBasic_escape rfl
  split
  · next hc =>
    subst hc
    exact readBasic_escape rfl
  split
  · next hc =>
    refine readBasic_unicodeEscape ?_
    rcases hc with hlt | rfl
    · have : c.toNat < 32 := hlt
      omega
    · decide
  · next hbreak _ _ _ hreturn hquote hslash hcontrol =>
    rw [List.singleton_append, readBasic, if_neg hquote, if_neg hslash,
      if_neg (fun h => hbreak h.2), if_neg (fun h => hreturn h.2),
      if_pos (isPlain_of_not_control hcontrol)]

lemma readBasic_flatMap (many : Bool) (cs rest : List Char) :
    readBasic many .text (cs.flatMap (escaped many) ++ rest)
      = (readBasic many .text rest).map fun p => (cs ++ p.1, p.2) := by
  induction cs with
  | nil => simp
  | cons c cs ih =>
    rw [List.flatMap_cons, List.append_assoc, readBasic_escaped, ih]
    simp [Text.cons, Function.comp_def]

/-! ### Closing quotes -/

lemma Closes.head?_ne (h : Closes rest) (hc : c ∉ [',', ' ', ']', '\n']) : rest.head? ≠ some c :=
  fun heq => hc (h c heq)

lemma readBasic_close (h : rest.head? ≠ some '"') :
    readBasic true .text (quotes '"' ++ rest) = some ([], rest) := by
  have hclose : closeMany rest = ([], rest) := by
    unfold closeMany
    split <;> simp_all
  simp [quotes, readBasic, afterTwo?, hclose]

/-- **A string is read up to the quotes that close it.** -/
lemma readBasic_quoted (cs rest : List Char) :
    readBasic false .text (cs.flatMap (escaped false) ++ '"' :: rest) = some (cs, rest) := by
  rw [readBasic_flatMap, readBasic]
  simp

lemma readBasic_quotedMany (cs : List Char) (h : rest.head? ≠ some '"') :
    readBasic true .text (cs.flatMap (escaped true) ++ (quotes '"' ++ rest)) = some (cs, rest) := by
  rw [readBasic_flatMap, readBasic_close h]
  simp

/-! ### Strings as they are -/

lemma le_longestRun (longest current : ℕ) (cs : List Char) :
    longest ≤ longestRun longest current cs ∧ current ≤ longestRun longest current cs := by
  induction cs generalizing longest current with
  | nil => exact ⟨Nat.le_max_left _ _, Nat.le_max_right _ _⟩
  | cons c cs ih =>
    rw [longestRun]
    split
    · have := ih longest (current + 1)
      omega
    · have := ih (max longest current) 0
      omega

lemma readLiteral_plain (hquote : c ≠ '\'') (hc : isPlain c = true) :
    readLiteral many (c :: rest) = (readLiteral many rest).cons c := by
  have hbreak : c ≠ '\n' := by
    rintro rfl
    revert hc
    decide
  have hreturn : c ≠ '\r' := by
    rintro rfl
    revert hc
    decide
  rw [readLiteral, if_neg hquote, if_neg (fun h => hbreak h.2), if_neg (fun h => hreturn h.2),
    if_pos hc]

lemma readLiteral_line (h : ∀ c ∈ cs, c ≠ '\'' ∧ isPlain c = true) :
    readLiteral false (cs ++ '\'' :: rest) = some (cs, rest) := by
  induction cs with
  | nil => simp [readLiteral]
  | cons c cs ih =>
    obtain ⟨hquote, hc⟩ := h c List.mem_cons_self
    rw [List.cons_append, readLiteral_plain hquote hc,
      ih fun d hd => h d (List.mem_cons_of_mem _ hd), Text.cons_some]

lemma readLiteral_close (h : rest.head? ≠ some '\'') :
    readLiteral true (quotes '\'' ++ rest) = some ([], rest) := by
  have hclose : closeManyLiteral rest = ([], rest) := by
    unfold closeManyLiteral
    split <;> simp_all
  simp [quotes, readLiteral, afterTwo?, hclose]

/-- A run of apostrophes that is short enough and does not end the string closes nothing. -/
lemma afterTwo?_of_longestRun {longest current : ℕ}
    (hrun : longestRun longest current ('\'' :: cs) < 3)
    (hlast : ('\'' :: cs).getLast? ≠ some '\'') : afterTwo? '\'' (cs ++ rest) = none := by
  rcases cs with _ | ⟨a, _ | ⟨b, cs⟩⟩
  · simp at hlast
  · have ha : a ≠ '\'' := by simpa using hlast
    cases rest <;> simp [afterTwo?, ha]
  · have hne : ¬(a = '\'' ∧ b = '\'') := by
      rintro ⟨rfl, rfl⟩
      simp only [longestRun, if_true] at hrun
      have := (le_longestRun longest (current + 1 + 1 + 1) cs).2
      omega
    simp [afterTwo?, hne]

/-- **A string that is written as it is is read up to the quotes that close it.** -/
lemma readLiteral_many {longest current : ℕ} (h : ∀ c ∈ cs, c = '\n' ∨ isPlain c = true)
    (hrun : longestRun longest current cs < 3) (hlast : cs.getLast? ≠ some '\'')
    (hrest : rest.head? ≠ some '\'') :
    readLiteral true (cs ++ (quotes '\'' ++ rest)) = some (cs, rest) := by
  induction cs generalizing longest current with
  | nil => exact readLiteral_close hrest
  | cons c cs ih =>
    have htail : ∀ d ∈ cs, d = '\n' ∨ isPlain d = true :=
      fun d hd => h d (List.mem_cons_of_mem _ hd)
    have hend : cs.getLast? ≠ some '\'' := by
      rcases cs with _ | ⟨d, cs⟩
      · simp
      · simpa [List.getLast?_cons_cons] using hlast
    rw [List.cons_append]
    by_cases hquote : c = '\''
    · subst hquote
      rw [readLiteral, if_pos rfl, if_pos rfl, afterTwo?_of_longestRun hrun hlast]
      simp only [longestRun, if_true] at hrun
      simp only [ih htail hrun hend, Text.cons_some]
    · rw [longestRun, if_neg hquote] at hrun
      rcases h c List.mem_cons_self with rfl | hc
      · rw [readLiteral, if_neg (by decide), if_pos ⟨rfl, rfl⟩, ih htail hrun hend, Text.cons_some]
      · rw [readLiteral_plain hquote hc, ih htail hrun hend, Text.cons_some]

/-! ### Whole strings -/

lemma readString_basic (h : afterTwo? '"' rest = none) :
    readString ('"' :: rest) = readBasic false .text rest := by
  unfold readString
  split
  · next heq =>
    obtain ⟨-, rfl⟩ := List.cons.inj heq
    simp [afterTwo?] at h
  · next heq =>
    obtain ⟨-, rfl⟩ := List.cons.inj heq
    rfl
  all_goals simp_all

lemma readString_literal (h : afterTwo? '\'' rest = none) :
    readString ('\'' :: rest) = readLiteral false rest := by
  unfold readString
  split
  · simp_all
  · simp_all
  · next heq =>
    obtain ⟨-, rfl⟩ := List.cons.inj heq
    simp [afterTwo?] at h
  · next heq =>
    obtain ⟨-, rfl⟩ := List.cons.inj heq
    rfl
  all_goals simp_all

lemma dropBreak_of_head?_ne (hbreak : cs.head? ≠ some '\n') (hreturn : cs.head? ≠ some '\r') :
    dropBreak cs = cs := by
  unfold dropBreak
  split <;> simp_all

/-- What a character is written with does not begin with quotes. -/
lemma escaped_ne_quote (many : Bool) (c : Char) : (escaped many c).head? ≠ some '"' := by
  unfold escaped
  split_ifs with _ _ _ _ _ _ hquote <;> simp_all [unicodeEscape]

lemma escaped_ne_nil (many : Bool) (c : Char) : escaped many c ≠ [] := by
  unfold escaped
  split_ifs <;> simp [unicodeEscape]

lemma afterTwo?_flatMap (hrest : rest.head? ≠ some '"') :
    afterTwo? '"' (cs.flatMap (escaped false) ++ '"' :: rest) = none := by
  cases cs with
  | nil => cases rest <;> simp_all [afterTwo?]
  | cons c cs =>
    obtain ⟨a, l, hl⟩ := List.exists_cons_of_ne_nil (escaped_ne_nil false c)
    have ha : a ≠ '"' := by
      have := escaped_ne_quote false c
      simpa [hl] using this
    rw [List.flatMap_cons, hl]
    cases l <;> cases cs.flatMap (escaped false) <;> simp [afterTwo?, ha]

/-- What a string that stays as it is asks for. -/
lemma of_staysLiteral (h : staysLiteral cs = true) :
    cs ≠ [] ∧ (∀ c ∈ cs, c = '\n' ∨ isPlain c = true) ∧ longestRun 0 0 cs < 3
      ∧ cs.getLast? ≠ some '\'' := by
  simp only [staysLiteral, Bool.and_eq_true, List.all_eq_true, Bool.or_eq_true,
    decide_eq_true_eq] at h
  obtain ⟨⟨⟨hslash, hplain⟩, hrun⟩, hlast⟩ := h
  refine ⟨?_, hplain, hrun, hlast⟩
  rintro rfl
  simp at hslash

/-- Three quotes may open a string that has no line break. -/
lemma readString_opened (h : staysLiteral cs = true) (hmany : '\n' ∉ cs)
    (hrest : rest.head? ≠ some '\'') :
    readString (quotes '\'' ++ cs ++ quotes '\'' ++ rest) = some (cs, rest) := by
  obtain ⟨hne, hplain, hrun, hlast⟩ := of_staysLiteral h
  obtain ⟨a, l, rfl⟩ := List.exists_cons_of_ne_nil hne
  have hbreak : a ≠ '\n' := fun heq => hmany (heq ▸ List.mem_cons_self)
  have hreturn : a ≠ '\r' := by
    rintro rfl
    have := (hplain _ List.mem_cons_self).resolve_left hbreak
    revert this
    decide
  have hdrop : dropBreak (a :: l ++ (quotes '\'' ++ rest)) = a :: l ++ (quotes '\'' ++ rest) :=
    dropBreak_of_head?_ne (by simpa using hbreak) (by simpa using hreturn)
  rw [List.append_assoc, List.append_assoc]
  show readLiteral true (dropBreak (a :: l ++ (quotes '\'' ++ rest))) = _
  rw [hdrop, readLiteral_many hplain hrun hlast hrest]

lemma readString_apostrophes (h : staysLiteral cs = true) (hmany : '\n' ∉ cs)
    (hquote : '\'' ∉ cs) :
    readString ('\'' :: cs ++ ['\''] ++ rest) = some (cs, rest) := by
  obtain ⟨hne, hplain, -⟩ := of_staysLiteral h
  have hchars : ∀ c ∈ cs, c ≠ '\'' ∧ isPlain c = true := fun c hc =>
    ⟨fun heq => hquote (heq ▸ hc), (hplain c hc).resolve_left fun heq => hmany (heq ▸ hc)⟩
  obtain ⟨a, l, rfl⟩ := List.exists_cons_of_ne_nil hne
  have hopen : afterTwo? '\'' (a :: l ++ '\'' :: rest) = none := by
    have := (hchars a List.mem_cons_self).1
    cases l <;> simp [afterTwo?, this]
  rw [List.append_assoc, List.cons_append, List.singleton_append, readString_literal hopen,
    readLiteral_line hchars]

/-- **A string is read as it was written.** -/
theorem readString_stringText (s : String) (h : Closes rest) :
    readString (stringText s ++ rest) = some (s.toList, rest) := by
  have hquote : rest.head? ≠ some '"' := h.head?_ne (by decide)
  have hapostrophe : rest.head? ≠ some '\'' := h.head?_ne (by decide)
  unfold stringText
  generalize s.toList = cs
  simp only [List.contains_iff_mem]
  split
  · next hliteral =>
    split
    · obtain ⟨-, hplain, hrun, hlast⟩ := of_staysLiteral hliteral
      simpa [quotes, readString, dropBreak] using readLiteral_many hplain hrun hlast hapostrophe
    · next hmany =>
      split
      · exact readString_opened hliteral hmany hapostrophe
      · next hnone => exact readString_apostrophes hliteral hmany hnone
  · split
    · next hmany =>
      have hcontains : cs.contains '\n' = true := by simpa using hmany
      rw [hcontains]
      simpa [quotes, readString, dropBreak] using readBasic_quotedMany cs hquote
    · next hmany =>
      have hcontains : cs.contains '\n' = false := by simpa using hmany
      rw [hcontains, List.append_assoc, List.cons_append, List.singleton_append,
        readString_basic (afterTwo?_flatMap hquote), readBasic_quoted]

/-! ### Keys -/

/-- What ends a key where it stands. -/
def ClosesKey (rest : List Char) : Prop := ∀ c ∈ rest.head?, c ∈ [' ', '.', ']']

lemma closesKey_cons (h : c ∈ [' ', '.', ']']) : ClosesKey (c :: rest) := by
  intro d hd
  rw [List.head?_cons, Option.mem_some_iff] at hd
  exact hd ▸ h

lemma dropWhile_of_closesKey (h : ClosesKey rest) :
    rest.takeWhile isBareKeyChar = [] ∧ rest.dropWhile isBareKeyChar = rest := by
  cases rest with
  | nil => simp
  | cons c rest =>
    have hc : isBareKeyChar c = false := by
      have hmem : c ∈ [' ', '.', ']'] := h c rfl
      simp only [List.mem_cons, List.not_mem_nil, or_false] at hmem
      rcases hmem with rfl | rfl | rfl <;> decide
    simp [hc]

lemma isBareKey_iff : isBareKey cs = true ↔ cs ≠ [] ∧ ∀ c ∈ cs, isBareKeyChar c = true := by
  simp [isBareKey, isBareKeyChar]

/-- The first character of a key as it is written. -/
lemma exists_keyText (key : String) :
    ∃ c l, keyText key = c :: l ∧ (c = '"' ∨ isBareKeyChar c = true) := by
  unfold keyText
  dsimp only
  split
  · next h =>
    obtain ⟨hne, hall⟩ := isBareKey_iff.mp h
    obtain ⟨c, l, hcs⟩ := List.exists_cons_of_ne_nil hne
    exact ⟨c, l, hcs, .inr (hall c (hcs ▸ List.mem_cons_self))⟩
  · exact ⟨'"', _, rfl, .inl rfl⟩

/-- **A key is read as it was written.** -/
theorem readSimpleKey_keyText (key : String) (h : ClosesKey rest) :
    readSimpleKey (keyText key ++ rest) = some (key, rest) := by
  unfold keyText
  dsimp only
  split
  · next hbare =>
    obtain ⟨hne, hall⟩ := isBareKey_iff.mp hbare
    obtain ⟨htake, hdrop⟩ := dropWhile_of_closesKey h
    obtain ⟨c, l, hcs⟩ := List.exists_cons_of_ne_nil hne
    have hc := hall c (hcs ▸ List.mem_cons_self)
    have hquote : ¬(c = '"' ∨ c = '\'') := by
      rintro (rfl | rfl) <;> revert hc <;> decide
    have hread : (key.toList ++ rest).takeWhile isBareKeyChar = key.toList := by
      rw [List.takeWhile_append_of_pos hall, htake, List.append_nil]
    have hleft : (key.toList ++ rest).dropWhile isBareKeyChar = rest := by
      rw [List.dropWhile_append_of_pos hall, hdrop]
    rw [hcs] at hread hleft ⊢
    rw [List.cons_append] at hread hleft ⊢
    have hkey : String.ofList (c :: l) = key := by rw [← hcs, String.ofList_toList]
    rw [readSimpleKey, if_neg hquote, hread, hleft]
    simp [hkey]
  · rw [List.append_assoc, List.cons_append, List.singleton_append, readSimpleKey,
      if_pos (.inl rfl), readLineString, readBasic_quoted]
    simp

end DeployClient.Toml
