import DeployClient.Ignore.Files
import DeployClient.Proofs.EntryNames

/-!
What the ignore rules say about a name, and what one more line changes.

The rule of a further line is the first that is asked at every level. Where it speaks, it always
says the same, and where it does not, the other rules are asked as before. So it can only move
verdicts in its own direction.
-/

namespace DeployClient.Ignore

open Bytes (slash dot)
open DeployClient.Path (IsName joinNames nameOf)

variable {line : String} {lines : List String} {root : Path} {r : Rule} {p p' : Patterns}
  {name : Bytes} {isDirectory : Bool}

/-! ### Lines -/

/-- The line re-includes what it speaks about. -/
def Reincluding (line : String) : Prop := line.toList.head? = some '!'

instance (line : String) : Decidable (Reincluding line) :=
  inferInstanceAs (Decidable (line.toList.head? = some '!'))

lemma trimLine_starts (l : List Char) : trimLine l <+: l := by
  unfold trimLine
  split
  · exact List.prefix_refl l
  · have h := List.reverse_prefix.mpr (List.dropWhile_suffix Text.isBlank (l := l.reverse))
    rwa [List.reverse_reverse] at h

lemma head?_trimLine {l : List Char} (h : trimLine l ≠ []) : (trimLine l).head? = l.head? := by
  obtain ⟨rest, hrest⟩ := trimLine_starts l
  conv_rhs => rw [← hrest, List.head?_append_of_ne_nil _ h]

lemma reincludes_markingOf (l : List Char) :
    (markingOf l).reincludes = true ↔ l.head? = some '!' := by
  unfold markingOf
  split
  all_goals try simp
  -- no other mark: an exclamation mark in front has been told apart before
  next hmark _ =>
    cases l with
    | nil => simp
    | cons c rest =>
      intro hc
      obtain rfl : c = '!' := by simpa using hc
      exact hmark rest rfl

/-- The mark of a line is the mark of its rule. -/
lemma reincludes_of_ofLine? (h : Rule.ofLine? line = .ok (some r)) :
    r.reincludes = true ↔ Reincluding line := by
  unfold Rule.ofLine? at h
  simp only at h
  split at h
  · simp at h
  · split at h
    · simp at h
    · next hempty =>
      split at h
      · simp at h
      · obtain rfl := Option.some.inj (Except.ok.inj h)
        rw [Reincluding, ← head?_trimLine (by simpa using hempty)]
        exact reincludes_markingOf _

lemma root_of_compile (h : Patterns.compile root lines = .ok p) :
    p.root = Patterns.dropStart Patterns.dotSlash root.bytes := by
  unfold Patterns.compile at h
  cases hrules : lines.mapM Rule.ofLine? with
  | error e => simp [hrules, Except.map] at h
  | ok rules =>
    rw [hrules] at h
    obtain rfl := Except.ok.inj h
    rfl

/-- A further line brings at most one further rule. -/
lemma compile_concat (h : Patterns.compile root (lines ++ [line]) = .ok p') :
    ∃ p rule?, Patterns.compile root lines = .ok p ∧ Rule.ofLine? line = .ok rule?
      ∧ p' = { p with rules := p.rules ++ rule?.toList } := by
  unfold Patterns.compile at h ⊢
  rw [List.mapM_append] at h
  cases hrules : lines.mapM Rule.ofLine? with
  | error e => simp [hrules, Except.map, bind, Except.bind] at h
  | ok rules =>
    cases hrule : Rule.ofLine? line with
    | error e => simp [hrules, hrule, Except.map, bind, Except.bind] at h
    | ok rule? =>
      rw [hrules, List.mapM_cons, hrule] at h
      obtain rfl := Except.ok.inj h
      refine ⟨_, rule?, rfl, rfl, ?_⟩
      cases rule? <;> simp

/-! ### Verdicts -/

lemma ruling?_concat (rules : List Rule) (r : Rule) (name : Bytes) (isDirectory : Bool) :
    Patterns.ruling? (rules ++ [r]) name isDirectory =
      if r.applies name isDirectory then some !r.reincludes
      else Patterns.ruling? rules name isDirectory := by
  unfold Patterns.ruling?
  rw [List.reverse_append, List.reverse_singleton, List.singleton_append, List.find?_cons]
  split <;> simp_all

/-- Asking in turn, where some answers have been changed to `v`: if the outcome was `v`, it
stays `v`. -/
lemma findSome?_getD_of_changed {α : Type} {f g : α → Option Bool} {v : Bool}
    (hg : ∀ a, g a = some v ∨ g a = f a) {l : List α} (h : (l.findSome? f).getD false = v) :
    (l.findSome? g).getD false = v := by
  induction l with
  | nil => exact h
  | cons a l ih =>
    rw [List.findSome?_cons] at h ⊢
    rcases hg a with ha | ha
    · rw [ha, Option.getD_some]
    · rw [ha]
      cases hf : f a with
      | some b => simpa [hf] using h
      | none => exact ih (by simpa [hf] using h)

/-- **A further rule moves no verdict against its own.** -/
theorem isIgnored_concat (h : p.isIgnored name isDirectory = !r.reincludes) :
    Patterns.isIgnored { p with rules := p.rules ++ [r] } name isDirectory = !r.reincludes := by
  refine findSome?_getD_of_changed (fun l => ?_) h
  simp only [ruling?_concat]
  split
  · exact .inl rfl
  · exact .inr rfl

/-- **A further line only moves verdicts in its own direction**: a plain one leaves out what was
left out, and one that re-includes keeps what was kept. -/
theorem isIgnored_of_further_line (h : Patterns.compile root lines = .ok p)
    (h' : Patterns.compile root (lines ++ [line]) = .ok p') (name : Bytes) (isDirectory : Bool) :
    (¬ Reincluding line → p.isIgnored name isDirectory = true →
        p'.isIgnored name isDirectory = true)
      ∧ (Reincluding line → p.isIgnored name isDirectory = false →
        p'.isIgnored name isDirectory = false) := by
  obtain ⟨q, rule?, hq, hrule, rfl⟩ := compile_concat h'
  obtain rfl : p = q := Except.ok.inj (h.symm.trans hq)
  cases rule? with
  | none =>
    rw [Option.toList_none, List.append_nil]
    exact ⟨fun _ => id, fun _ => id⟩
  | some r =>
    have hmark := reincludes_of_ofLine? hrule
    refine ⟨fun hplain hignored => ?_, fun hre hkept => ?_⟩
    · have hr : r.reincludes = false := by simpa using fun hr => hplain (hmark.mp hr)
      simpa [hr] using isIgnored_concat (r := r) (by simpa [hr] using hignored)
    · have hr : r.reincludes = true := hmark.mpr hre
      simpa [hr] using isIgnored_concat (r := r) (by simpa [hr] using hkept)

/-! ### Names as seen from the root -/

lemma dropStart_eq_self {start name : Bytes} (h : ¬ start <+: name) :
    Patterns.dropStart start name = name := by
  unfold Patterns.dropStart
  split
  · next rest hrest => exact absurd ⟨rest, (Path.isPrefixOf?_eq_some_iff.mp hrest).symm⟩ h
  · rfl

lemma not_starts_of_head? {start name : Bytes} {x : UInt8} (hs : start.head? = some x)
    (hn : name.head? ≠ some x) : ¬ start <+: name := by
  rintro ⟨rest, rfl⟩
  rw [List.head?_append, hs] at hn
  exact hn rfl

lemma load_eq_ok_iff {fs : FileSystem} {dir : Path} {files : List Path} :
    (load fs dir files).1 = .ok p ↔ ∃ lines, (readFiles fs dir files).lines = .ok lines
      ∧ Patterns.compile dir lines = .ok p := by
  unfold load
  simp only
  cases (readFiles fs dir files).lines with
  | error e => simp
  | ok lines =>
    cases hcompile : Patterns.compile dir lines with
    | error e => simp [hcompile, Except.mapError]
    | ok q => simp [hcompile, Except.mapError]

/-- The root of the patterns is the working directory as it is written. -/
lemma root_of_load {fs : FileSystem} {dir : Path} {files : List Path} (hdir : dir.IsNormal)
    (h : (load fs dir files).1 = .ok p) : p.root = dir.bytes := by
  obtain ⟨lines, -, hcompile⟩ := load_eq_ok_iff.mp h
  rw [root_of_compile hcompile]
  obtain ⟨names, rfl, -⟩ := hdir
  refine dropStart_eq_self (not_starts_of_head? rfl ?_)
  simp [Path.ofNames, slash, dot]

lemma head?_root_of_load {fs : FileSystem} {dir : Path} {files : List Path} (hdir : dir.IsNormal)
    (h : (load fs dir files).1 = .ok p) : p.root.head? = some slash := by
  rw [root_of_load hdir h]
  obtain ⟨names, rfl, -⟩ := hdir
  rfl

lemma head?_nameOf {names : List Bytes} (h : ∀ n ∈ names, IsName n) :
    (nameOf names).head? ≠ some slash := by
  unfold nameOf
  split
  · decide
  · exact Path.head?_joinNames h

lemma not_starts_dotSlash {names : List Bytes} (h : ∀ n ∈ names, IsName n) :
    ¬ Patterns.dotSlash <+: nameOf names := by
  unfold nameOf
  split
  · decide
  · next hne =>
    rintro ⟨rest, hrest⟩
    have hsplit := Path.splitOn_joinNames (fun n hn => (h n hn).2.1) (by simpa using hne)
    -- a dot and a slash in front would make a dot the first name
    rw [← hrest, Patterns.dotSlash, List.cons_append, List.cons_append, List.nil_append,
      List.splitOn_cons_eq_if_modifyHead, if_neg (by decide), List.splitOn_cons_eq_if_modifyHead,
      if_pos (by simp)] at hsplit
    exact (h [dot] (hsplit ▸ List.mem_cons_self)).2.2.1 rfl

/-- **Names of entries are asked about as they are**: from the root of the patterns nothing is
cut off them. -/
theorem relative_nameOf {names : List Bytes} (hroot : p.root.head? = some slash)
    (h : ∀ n ∈ names, IsName n) : p.relative (nameOf names) = nameOf names := by
  unfold Patterns.relative
  simp only [dropStart_eq_self (not_starts_dotSlash h)]
  split
  · rfl
  · split
    · next rest hrest =>
      exact absurd ⟨rest, (Path.isPrefixOf?_eq_some_iff.mp hrest).symm⟩
        (not_starts_of_head? hroot (head?_nameOf h))
    · rfl

/-! ### Levels -/

namespace Patterns

variable {rules : List Rule} {names front rest : List Bytes} {last : Bytes}

/-- What the rules say about a name or else about the directories above it, from the nearest to the
place that they are all below. -/
def asked? (rules : List Rule) (names : List Bytes) (isDirectory : Bool) : Option Bool :=
  (levels (joinNames names) isDirectory).findSome? fun l => ruling? rules l.1 l.2

lemma asked?_nil (rules : List Rule) (isDirectory : Bool) :
    asked? rules [] isDirectory = ruling? rules [] isDirectory := by
  rw [asked?, levels, Path.parents_joinNames_nil, List.map_nil, List.findSome?_singleton]
  rfl

lemma asked?_concat (h : ∀ n ∈ names ++ [last], IsName n) (isDirectory : Bool) :
    asked? rules (names ++ [last]) isDirectory =
      (ruling? rules (joinNames (names ++ [last])) isDirectory).or (asked? rules names true) := by
  rw [asked?, levels, Path.parents_joinNames h, List.findSome?_cons, List.map_cons]
  cases ruling? rules (joinNames (names ++ [last])) isDirectory with
  | none => rw [Option.none_or, asked?, levels]
  | some b => rfl

lemma isIgnored_nameOf (hroot : p.root.head? = some slash) (h : ∀ n ∈ names, IsName n)
    (hne : names ≠ []) (isDirectory : Bool) :
    p.isIgnored (joinNames names) isDirectory = (asked? p.rules names isDirectory).getD false := by
  have hrelative := relative_nameOf hroot h
  rw [Path.nameOf_of_ne_nil hne] at hrelative
  rw [isIgnored, hrelative, asked?]

/-- The rules say the same about names below a directory, whether they are asked from that directory
or from higher up, and about the directory itself what they say about the place that they are asked
from. -/
structure Floats (rules : List Rule) (front : List Bytes) : Prop where
  below : ∀ rest, rest ≠ [] → (∀ n ∈ rest, IsName n) → ∀ isDirectory,
    ruling? rules (joinNames (front ++ rest)) isDirectory
      = ruling? rules (joinNames rest) isDirectory
  above : asked? rules front true = ruling? rules [] true

/-- **Rules that float give the same verdicts from higher up.** -/
theorem Floats.asked?_append (hfloat : Floats rules front) (h : ∀ n ∈ front ++ rest, IsName n)
    (hne : rest ≠ []) (isDirectory : Bool) :
    asked? rules (front ++ rest) isDirectory = asked? rules rest isDirectory := by
  induction rest using List.reverseRecOn generalizing isDirectory with
  | nil => exact absurd rfl hne
  | append_singleton rest last ih =>
    have hrest : ∀ n ∈ rest ++ [last], IsName n := fun n hn => h n (List.mem_append_right _ hn)
    have hlevel := hfloat.below (rest ++ [last]) (by simp) hrest isDirectory
    -- one level up there is the rest of the way, or the directory itself
    have habove : asked? rules (front ++ rest) true = asked? rules rest true := by
      by_cases hnil : rest = []
      · subst hnil
        rw [List.append_nil, asked?_nil, hfloat.above]
      · refine ih (fun n hn => h n ?_) hnil true
        rw [← List.append_assoc]
        exact List.mem_append_left _ hn
    rw [asked?_concat hrest, ← List.append_assoc, asked?_concat (by simpa using h), habove,
      List.append_assoc, hlevel]

end Patterns

end DeployClient.Ignore
