import DeployClient.Proofs.QuotedText
import Mathlib.Data.List.Basic

/-!
Numbers and truth values, written and read again.

A number is written with nothing but digits and a sign in front, and no date or time can be
read from these.
-/

namespace DeployClient.Toml

variable {c : Char} {cs rest : List Char} {i : Int}

/-! ### Digits -/

lemma isDigit_iff : isDigit c = true ↔ '0' ≤ c ∧ c ≤ '9' := by
  simp [isDigit]

lemma digitValue_of_isDigit (h : isDigit c = true) : digitValue c = c.toNat - 48 := by
  rw [digitValue, if_pos h]

lemma digitValue_lt (h : isDigit c = true) : digitValue c < 10 := by
  obtain ⟨-, hle⟩ := isDigit_iff.mp h
  have : c.toNat ≤ 57 := hle
  rw [digitValue_of_isDigit h]
  omega

lemma ne_of_isDigit {d : Char} (h : isDigit c = true) (hd : isDigit d = false) : c ≠ d := by
  rintro rfl
  simp [h] at hd

lemma isDigit_of_mem_digitChars {n : ℕ} (h : c ∈ Decimal.digitChars n) : isDigit c = true := by
  have hdigit : c.isDigit = true := Nat.isDigit_of_mem_toDigits (by decide) (by decide) h
  simpa [Char.isDigit, isDigit, Char.le_def] using hdigit

lemma digitChars_ne_nil (n : ℕ) : Decimal.digitChars n ≠ [] := Nat.toDigits_ne_nil

lemma numberOf_digitChars (n : ℕ) : numberOf 10 (Decimal.digitChars n) = n := by
  have hstep : ∀ k, ∀ c ∈ Decimal.digitChars n,
      k * 10 + digitValue c = 10 * k + (c.toNat - '0'.toNat) := by
    intro k c hc
    rw [digitValue_of_isDigit (isDigit_of_mem_digitChars hc), Nat.mul_comm]
    rfl
  rw [numberOf, List.foldl_ext _ _ _ hstep]
  exact (Nat.ofDigitChars_eq_foldl (b := 10)).symm.trans Nat.ofDigitChars_ten_toDigits

/-- Zero is the only number with a zero in front. -/
lemma head?_digitChars {n : ℕ} (h : n ≠ 0) : (Decimal.digitChars n).head? ≠ some '0' := by
  induction n using Nat.strongRecOn with
  | _ n ih =>
    unfold Decimal.digitChars
    by_cases hn : n < 10
    · rw [Nat.toDigits_of_lt_base hn]
      have hdigit : ∀ m < 10, m ≠ 0 → m.digitChar ≠ '0' := by decide
      simpa using hdigit n hn h
    · have hle : 10 ≤ n := Nat.le_of_not_lt hn
      rw [Nat.toDigits_of_base_le (by decide) hle,
        List.head?_append_of_ne_nil _ Nat.toDigits_ne_nil]
      exact ih (n / 10) (Nat.div_lt_self (by omega) (by decide)) (by omega)

lemma joinedDigits_of_isDigit (h : ∀ c ∈ cs, isDigit c = true) :
    joinedDigits 10 true cs = some cs := by
  induction cs with
  | nil => rfl
  | cons c cs ih =>
    have hc := h c List.mem_cons_self
    have hscore : c ≠ '_' := ne_of_isDigit hc (by decide)
    have hdigit : isDigitOf 10 c = true := by
      rw [isDigitOf, decide_eq_true_eq]
      exact digitValue_lt hc
    rw [joinedDigits, if_neg hscore, if_pos hdigit, ih fun d hd => h d (List.mem_cons_of_mem _ hd)]
    rfl

lemma plainDigits?_digitChars (n : ℕ) :
    plainDigits? (Decimal.digitChars n) = some (Decimal.digitChars n) := by
  have hall : ∀ c ∈ Decimal.digitChars n, isDigit c = true := fun c => isDigit_of_mem_digitChars
  have hjoined : joinedDigits 10 false (Decimal.digitChars n) = some (Decimal.digitChars n) := by
    rw [← joinedDigits_of_isDigit hall]
    obtain ⟨c, cs, hcs⟩ := List.exists_cons_of_ne_nil (digitChars_ne_nil n)
    have hscore : c ≠ '_' := ne_of_isDigit (hall c (hcs ▸ List.mem_cons_self)) (by decide)
    rw [hcs, joinedDigits, joinedDigits, if_neg hscore, if_neg hscore]
  unfold plainDigits?
  split
  · next d l hcs =>
    by_cases hn : n = 0
    · subst hn
      simp [Decimal.digitChars] at hcs
    · exact absurd (by rw [hcs]; rfl) (head?_digitChars hn)
  · exact hjoined

/-! ### Integers -/

lemma integerText_spec (i : Int) : integerText i ≠ []
    ∧ (∀ c ∈ integerText i, c = '-' ∨ isDigit c = true)
    ∧ ∀ c ∈ (integerText i).drop 1, isDigit c = true := by
  have hall : ∀ c ∈ Decimal.digitChars i.natAbs, isDigit c = true :=
    fun c => isDigit_of_mem_digitChars
  have hne := digitChars_ne_nil i.natAbs
  unfold integerText signText
  split
  · refine ⟨by simp, fun c hc => ?_, by simpa using hall⟩
    rcases List.mem_cons.mp hc with rfl | hc
    · exact .inl rfl
    · exact .inr (hall c hc)
  · exact ⟨by simpa using hne, fun c hc => .inr (hall c hc),
      fun c hc => hall c (List.mem_of_mem_drop hc)⟩

lemma integer?_integerText (h : inRange? i = some i) : integer? (integerText i) = some i := by
  have hdigits : ∀ c ∈ Decimal.digitChars i.natAbs, isDigit c = true :=
    fun c => isDigit_of_mem_digitChars
  have hletter : ∀ d, isDigit d = false → d ∉ Decimal.digitChars i.natAbs := by
    intro d hd hmem
    simp [hdigits d hmem] at hd
  have hsign : splitSign (integerText i) = (decide (i < 0), Decimal.digitChars i.natAbs) := by
    unfold integerText signText
    by_cases hneg : i < 0
    · simp [hneg, splitSign]
    · obtain ⟨c, cs, hcs⟩ := List.exists_cons_of_ne_nil (digitChars_ne_nil i.natAbs)
      have hc := hdigits c (hcs ▸ List.mem_cons_self)
      have hminus : c ≠ '-' := ne_of_isDigit hc (by decide)
      have hplus : c ≠ '+' := ne_of_isDigit hc (by decide)
      simp only [hneg, decide_false, Bool.false_eq_true, if_false, List.nil_append, hcs, splitSign]
      split <;> simp_all
  have hvalue : signed (decide (i < 0)) (numberOf 10 (Decimal.digitChars i.natAbs)) = i := by
    rw [numberOf_digitChars, signed]
    simp only [decide_eq_true_eq]
    split <;> omega
  have hspec := (integerText_spec i).2.2
  unfold integer?
  split
  · next heq => exact absurd (hspec 'x' (by simp [heq])) (by decide)
  · next heq => exact absurd (hspec 'o' (by simp [heq])) (by decide)
  · next heq => exact absurd (hspec 'b' (by simp [heq])) (by decide)
  · simp only [hsign, plainDigits?_digitChars, Option.bind_some, hvalue, h]

/-! ### Neither a date nor a time -/

lemma expect?_of_isDigit {d : Char} (hd : isDigit d = false) (h : ∀ c ∈ cs, isDigit c = true) :
    expect? d cs = none := by
  cases cs with
  | nil => rfl
  | cons c cs => rw [expect?, if_neg (ne_of_isDigit (h c List.mem_cons_self) hd)]

/-- After some digits there are digits again. -/
lemma digits_of_fixedDigits? {count n : Nat} (hcount : count ≠ 0)
    (h : ∀ c ∈ cs.drop 1, isDigit c = true) (hfixed : fixedDigits? count cs = some (n, rest)) :
    ∀ c ∈ rest, isDigit c = true := by
  unfold fixedDigits? at hfixed
  dsimp only at hfixed
  split at hfixed
  · obtain ⟨-, rfl⟩ := Prod.mk.inj (Option.some.inj hfixed)
    intro c hc
    refine h c ?_
    obtain ⟨k, rfl⟩ := Nat.exists_eq_succ_of_ne_zero hcount
    rw [Nat.succ_eq_add_one, Nat.add_comm, ← List.drop_drop] at hc
    exact List.mem_of_mem_drop hc
  · simp at hfixed

lemma moment?_of_isDigit (h : ∀ c ∈ cs.drop 1, isDigit c = true) : moment? cs = none := by
  have hdate : date? cs = none := by
    unfold date?
    rcases hfixed : fixedDigits? 4 cs with _ | ⟨year, rest⟩
    · rfl
    · have hrest := digits_of_fixedDigits? (by decide) h hfixed
      simp [expect?_of_isDigit (d := '-') (by decide) hrest]
  have htime : time? cs = none := by
    unfold time?
    rcases hfixed : fixedDigits? 2 cs with _ | ⟨hour, rest⟩
    · rfl
    · have hrest := digits_of_fixedDigits? (by decide) h hfixed
      simp [expect?_of_isDigit (d := ':') (by decide) hrest]
  rw [moment?, hdate, htime]
  rfl

/-! ### Values without brackets and braces -/

lemma Closes.token (h : Closes rest) :
    rest.takeWhile isTokenChar = [] ∧ rest.dropWhile isTokenChar = rest := by
  cases rest with
  | nil => simp
  | cons c rest =>
    have hc : isTokenChar c = false := by
      have hmem : c ∈ [',', ' ', ']', '\n'] := h c rfl
      simp only [List.mem_cons, List.not_mem_nil, or_false] at hmem
      rcases hmem with rfl | rfl | rfl | rfl <;> decide
    simp [hc]

lemma readToken_integerText (h : inRange? i = some i) (hrest : Closes rest) :
    readToken (integerText i ++ rest) = some (.integer i, rest) := by
  obtain ⟨-, hchars, hdrop⟩ := integerText_spec i
  have htoken : ∀ c ∈ integerText i, isTokenChar c = true := by
    intro c hc
    rcases hchars c hc with rfl | hdigit
    · decide
    · simp [isTokenChar, hdigit]
  obtain ⟨htake, hleft⟩ := hrest.token
  have hvalue : tokenValue? (integerText i) = some (.integer i) := by
    rw [tokenValue?, moment?_of_isDigit hdrop, integer?_integerText h]
  rw [readToken, List.takeWhile_append_of_pos htoken, List.dropWhile_append_of_pos htoken, htake,
    hleft, List.append_nil]
  simp only [hvalue]

lemma exists_integerText (i : Int) :
    ∃ c l, integerText i = c :: l ∧ (c = '-' ∨ isDigit c = true) := by
  obtain ⟨hne, hchars, -⟩ := integerText_spec i
  obtain ⟨c, l, hcs⟩ := List.exists_cons_of_ne_nil hne
  exact ⟨c, l, hcs, hchars c (hcs ▸ List.mem_cons_self)⟩

/-- **An integer is read as it was written.** -/
theorem readScalar_integerText (h : inRange? i = some i) (hrest : Closes rest) :
    readScalar (integerText i ++ rest) = some (.integer i, rest) := by
  obtain ⟨c, l, hcs, hc⟩ := exists_integerText i
  have hother : ∀ d, isDigit d = false → d ≠ '-' → c ≠ d := by
    rintro d hd hminus rfl
    rcases hc with rfl | hc
    · exact hminus rfl
    · simp [hc] at hd
  have hread := readToken_integerText h hrest
  rw [hcs, List.cons_append] at hread ⊢
  rw [readScalar,
    if_neg (not_or.mpr ⟨hother _ (by decide) (by decide), hother _ (by decide) (by decide)⟩),
    if_neg (hother _ (by decide) (by decide)), if_neg (hother _ (by decide) (by decide)), hread]

lemma exists_stringText (s : String) : ∃ c l, stringText s = c :: l ∧ (c = '"' ∨ c = '\'') := by
  unfold stringText
  dsimp only
  split_ifs
  · exact ⟨_, _, rfl, .inr rfl⟩
  · exact ⟨_, _, rfl, .inr rfl⟩
  · exact ⟨_, _, rfl, .inr rfl⟩
  · exact ⟨_, _, rfl, .inl rfl⟩
  · exact ⟨_, _, rfl, .inl rfl⟩

lemma readScalar_stringText (s : String) (hrest : Closes rest) :
    readScalar (stringText s ++ rest) = some (.string s, rest) := by
  obtain ⟨c, l, hcs, hc⟩ := exists_stringText s
  have hread := readString_stringText s hrest
  rw [hcs, List.cons_append] at hread ⊢
  rw [readScalar, if_pos hc, hread]
  simp

lemma readScalar_boolean (b : Bool) (rest : List Char) :
    readScalar (valueText (.boolean b) ++ rest) = some (.boolean b, rest) := by
  cases b <;> simp [valueText, readScalar, readWord, List.isPrefixOf?]

end DeployClient.Toml
