import DeployClient.Settings.EnvironmentValue
import Mathlib.Tactic.Common

/-!
Quoted strings in variables.

The reader of a configuration file and a search for the closing quote go over a string together, one
character after the other. Whichever phase the reader is in, a quote ends the string unless a
backslash stands before it, so both find the same end, and a string is read the same whatever comes
after it.
-/

namespace DeployClient.Settings

open Toml (Phase readBasic)

variable {c : Char} {cs rest text body : List Char} {s : String} {p p' : Phase}

/-! ### One character -/

/-- The search for the quote passes the character by, and goes on as the phase after it asks. -/
def Passes (p : Phase) (c : Char) (p' : Phase) : Prop :=
  ∀ r, quotedBody (p = .escape) (c :: r)
    = (quotedBody (p' = .escape) r).map fun q => (c :: q.1, q.2)

/-- The phases of a string that ends on its line. -/
inductive OnLine : Phase → Prop
  | text : OnLine .text
  | escape : OnLine .escape
  | hex (left value : ℕ) : OnLine (.hex left value)

/-- A character ends the string, or it is read in silence or as a character of the text, or the
string cannot be read. -/
inductive Step (p : Phase) (c : Char) : Prop
  | close (hp : p = .text) (hc : c = '"')
  | silent (p' : Phase) (hp' : OnLine p') (hpass : Passes p c p')
      (h : ∀ r, readBasic false p (c :: r) = readBasic false p' r)
  | char (e : Char) (hpass : Passes p c .text)
      (h : ∀ r, readBasic false p (c :: r) = (readBasic false .text r).cons e)
  | stuck (h : ∀ r, readBasic false p (c :: r) = none)

lemma step_text (c : Char) : Step .text c := by
  by_cases hquote : c = '"'
  · exact .close rfl hquote
  have hpass : ∀ r, quotedBody (Phase.text = .escape) (c :: r)
      = (quotedBody (c = '\\') r).map fun q => (c :: q.1, q.2) := by
    intro r
    rw [decide_eq_false (by decide), quotedBody, if_neg hquote]
  by_cases hslash : c = '\\'
  · refine .silent .escape .escape (fun r => ?_) fun r => ?_
    · rw [hpass, decide_eq_true hslash, decide_eq_true rfl]
    · rw [readBasic, if_neg hquote, if_pos hslash]
  by_cases hplain : Toml.isPlain c = true
  · refine .char c (fun r => ?_) fun r => ?_
    · rw [hpass, decide_eq_false hslash, decide_eq_false (by decide)]
    · rw [readBasic, if_neg hquote, if_neg hslash, if_neg (by simp), if_neg (by simp),
        if_pos hplain]
  · refine .stuck fun r => ?_
    rw [readBasic, if_neg hquote, if_neg hslash, if_neg (by simp), if_neg (by simp),
      if_neg hplain]

lemma passes_escape (hp' : p' ≠ .escape) : Passes .escape c p' := by
  intro r
  rw [decide_eq_true rfl, quotedBody, decide_eq_false hp']

lemma step_escape (c : Char) : Step .escape c := by
  cases hescape : Toml.escape? c with
  | some e => exact .char e (passes_escape (by simp)) fun r => by rw [readBasic, hescape]
  | none =>
    by_cases hu : c = 'u'
    · refine .silent (.hex 4 0) (.hex 4 0) (passes_escape (by simp)) fun r => ?_
      rw [readBasic, hescape]
      simp only [if_pos hu]
    by_cases hU : c = 'U'
    · refine .silent (.hex 8 0) (.hex 8 0) (passes_escape (by simp)) fun r => ?_
      rw [readBasic, hescape]
      simp only [if_neg hu, if_pos hU]
    · refine .stuck fun r => ?_
      rw [readBasic, hescape]
      simp [hu, hU]

lemma step_hex (left value : ℕ) (c : Char) : Step (.hex left value) c := by
  cases hdigit : Toml.hexValue? c with
  | none => exact .stuck fun r => by rw [readBasic, hdigit]
  | some d =>
    -- neither a quote nor a backslash is a digit
    have hquote : c ≠ '"' := by
      rintro rfl
      simp [Toml.hexValue?] at hdigit
    have hslash : c ≠ '\\' := by
      rintro rfl
      simp [Toml.hexValue?] at hdigit
    have hpass : ∀ {p'}, p' ≠ .escape → Passes (.hex left value) c p' := by
      intro p' hp' r
      rw [decide_eq_false (by simp), quotedBody, if_neg hquote, decide_eq_false hslash,
        decide_eq_false hp']
    by_cases hleft : left ≤ 1
    · cases hscalar : Toml.scalar? (value * 16 + d) with
      | some e =>
        refine .char e (hpass (by simp)) fun r => ?_
        rw [readBasic, hdigit]
        simp only [if_pos hleft, hscalar]
      | none =>
        refine .stuck fun r => ?_
        rw [readBasic, hdigit]
        simp only [if_pos hleft, hscalar]
    · refine .silent (.hex (left - 1) (value * 16 + d)) (.hex _ _) (hpass (by simp)) fun r => ?_
      rw [readBasic, hdigit]
      simp only [if_neg hleft]

lemma OnLine.step (h : OnLine p) (c : Char) : Step p c := by
  cases h with
  | text => exact step_text c
  | escape => exact step_escape c
  | hex left value => exact step_hex left value c

/-! ### The body of a string -/

/-- From a phase on, a body is read as a text, and the quote after it ends the string. -/
structure ReadsTo (p : Phase) (body text : List Char) : Prop where
  length_le : text.length ≤ body.length
  quoted : ∀ more, quotedBody (p = .escape) (body ++ '"' :: more) = some (body, '"' :: more)
  basic : ∀ more, readBasic false p (body ++ '"' :: more) = some (text, more)

namespace ReadsTo

lemma nil : ReadsTo .text [] [] where
  length_le := Nat.le_refl _
  quoted more := by simp [quotedBody]
  basic more := by simp [readBasic]

lemma silent (h : ReadsTo p' body text) (hpass : Passes p c p')
    (hbasic : ∀ r, readBasic false p (c :: r) = readBasic false p' r) :
    ReadsTo p (c :: body) text where
  length_le := Nat.le_succ_of_le h.length_le
  quoted more := by rw [List.cons_append, hpass, h.quoted, Option.map_some]
  basic more := by rw [List.cons_append, hbasic, h.basic]

lemma char {e : Char} (h : ReadsTo .text body text) (hpass : Passes p c .text)
    (hbasic : ∀ r, readBasic false p (c :: r) = (readBasic false .text r).cons e) :
    ReadsTo p (c :: body) (e :: text) where
  length_le := Nat.succ_le_succ h.length_le
  quoted more := by rw [List.cons_append, hpass, h.quoted, Option.map_some]
  basic more := by
    rw [List.cons_append, hbasic, h.basic]
    rfl

end ReadsTo

/-- **A string is read up to its closing quote**, where the search finds it. -/
theorem exists_readsTo (hp : OnLine p) (h : readBasic false p cs = some (text, rest)) :
    ∃ body, cs = body ++ '"' :: rest ∧ ReadsTo p body text := by
  induction cs generalizing p text with
  | nil => cases hp <;> simp [readBasic] at h
  | cons c r ih =>
    cases hp.step c with
    | close hp hc =>
      subst hp hc
      rw [readBasic, if_pos rfl, if_neg (by simp)] at h
      obtain ⟨rfl, rfl⟩ := Prod.mk.inj (Option.some.inj h)
      exact ⟨[], rfl, .nil⟩
    | silent p' hp' hpass hbasic =>
      obtain ⟨body, rfl, hbody⟩ := ih hp' (hbasic r ▸ h)
      exact ⟨c :: body, rfl, hbody.silent hpass hbasic⟩
    | char e hpass hbasic =>
      rw [hbasic] at h
      obtain ⟨⟨text', rest'⟩, hr, heq⟩ := Option.map_eq_some_iff.mp h
      obtain ⟨rfl, rfl⟩ := Prod.mk.inj heq
      obtain ⟨body, rfl, hbody⟩ := ih .text hr
      exact ⟨c :: body, rfl, hbody.char hpass hbasic⟩
    | stuck hbasic => simp [hbasic] at h

lemma eq_append_of_quotedBody {b : Bool} (h : quotedBody b cs = some (body, rest)) :
    cs = body ++ rest := by
  induction cs generalizing b body with
  | nil => cases b <;> simp [quotedBody] at h
  | cons c r ih =>
    have hmap : ∀ {b}, ((quotedBody b r).map fun q => (c :: q.1, q.2)) = some (body, rest) →
        c :: r = body ++ rest := by
      intro b hread
      obtain ⟨⟨body', rest'⟩, hr, heq⟩ := Option.map_eq_some_iff.mp hread
      obtain ⟨rfl, rfl⟩ := Prod.mk.inj heq
      exact congrArg (c :: ·) (ih hr)
    cases b with
    | true => exact hmap h
    | false =>
      rw [quotedBody] at h
      split at h
      · obtain ⟨rfl, rfl⟩ := Prod.mk.inj (Option.some.inj h)
        rfl
      · exact hmap h

/-! ### Whole strings -/

/-- A quoted string of a configuration file, on one line. -/
inductive IsQuoted : List Char → String → Prop
  | intro {body text : List Char} (h : readBasic false .text (body ++ ['"']) = some (text, [])) :
      IsQuoted ('"' :: body ++ ['"']) (String.ofList text)

lemma IsQuoted.exists_body (h : IsQuoted text s) :
    ∃ body cs, text = '"' :: body ++ ['"'] ∧ s = String.ofList cs ∧ ReadsTo .text body cs := by
  obtain ⟨h⟩ := h
  obtain ⟨body', hbody, hreads⟩ := exists_readsTo .text h
  obtain ⟨rfl, -⟩ := List.append_inj' hbody rfl
  exact ⟨_, _, rfl, rfl, hreads⟩

lemma IsQuoted.length_lt (h : IsQuoted text s) : s.length < text.length := by
  obtain ⟨body, cs, rfl, rfl, hreads⟩ := h.exists_body
  have hle := hreads.length_le
  simp only [String.length_ofList, List.length_append, List.length_cons, List.length_nil]
  omega

/-- **A quoted string is read, and nothing else is**; what comes after it is left. -/
theorem readQuoted_eq_some_iff : readQuoted cs = some (s, rest)
    ↔ ∃ text, text ++ rest = cs ∧ IsQuoted text s := by
  constructor
  · intro h
    unfold readQuoted at h
    split at h
    · split at h
      · next body rest' hbody =>
        split at h
        · next text htext =>
          obtain ⟨rfl, rfl⟩ := Prod.mk.inj (Option.some.inj h)
          exact ⟨_, by simp [eq_append_of_quotedBody hbody], .intro htext⟩
        · simp at h
      · simp at h
    · simp at h
  · rintro ⟨text, rfl, h⟩
    obtain ⟨body, cs, rfl, rfl, hreads⟩ := h.exists_body
    have hquoted : quotedBody false (body ++ '"' :: rest) = some (body, '"' :: rest) :=
      hreads.quoted rest
    rw [List.append_assoc, List.singleton_append, List.cons_append]
    simp only [readQuoted, hquoted, hreads.basic]

end DeployClient.Settings
