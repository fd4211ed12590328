import DeployClient.Proofs.ParentPaths
import DeployClient.Proofs.Rulings
import Mathlib.Data.List.ReduceOption

/-!
How the lines of the ignore files decide about a name.

A name is asked about at several levels: as it is, and then as what lies in each directory above
it, up to the directory that holds everything. The nearest level at which a line speaks decides,
and there the last line that does, whichever file it is from.
-/

namespace DeployClient

open Bytes (slash dot)

/-! ### Going up a relative path -/

namespace Path

variable {p q : Path} {first : Bytes} {rest parts : List Bytes}

/-- A path that does not begin with a slash begins with a part of its own. -/
lemma exists_first_part (hrel : p.isAbsolute = false) (hne : p.bytes ≠ []) :
    ∃ first rest, p.bytes.splitOn slash = first :: rest ∧ first ≠ [] := by
  obtain ⟨x, b, hb⟩ := List.exists_cons_of_ne_nil hne
  have hx : x ≠ slash := by
    rintro rfl
    simp [isAbsolute, hb] at hrel
  obtain ⟨part, parts, hparts⟩ := List.exists_cons_of_ne_nil (List.splitOn_ne_nil slash b)
  refine ⟨x :: part, parts, ?_, by simp⟩
  rw [hb, List.splitOn_cons_eq_if_modifyHead, if_neg (by simpa using hx), hparts,
    List.modifyHead_cons]

/-- The parts that are kept end with one that stands for something. -/
lemma trimParts_eq_concat (h : trimParts parts ≠ []) :
    ∃ init last, trimParts parts = init ++ [last] ∧ last ≠ [] := by
  obtain ⟨init, last, hconcat⟩ := (List.eq_nil_or_concat' (trimParts parts)).resolve_left h
  refine ⟨init, last, hconcat, ?_⟩
  rintro rfl
  have hhead := List.head?_dropWhile_not (fun part => (Component.ofPart part).isNone) parts.reverse
  have hlast : (trimParts parts).reverse.head? = some [] := by simp [hconcat]
  rw [trimParts, List.reverse_reverse] at hlast
  rw [hlast] at hhead
  simp [Component.ofPart] at hhead

/-- What stands in front and the rest are the whole path. -/
lemma bytes_eq_splitHead (p : Path) : p.bytes = p.splitHead.1 ++ p.splitHead.2 := by
  unfold splitHead
  split
  · exact (List.take_append_drop 1 p.bytes).symm
  · rfl

/-- A parent is shorter than the path. -/
lemma length_lt_of_parent? (h : p.parent? = some q) : q.bytes.length < p.bytes.length := by
  have hbytes := congrArg List.length (bytes_eq_splitHead p)
  unfold parent? at h
  generalize p.splitHead = front at h hbytes
  obtain ⟨head, body⟩ := front
  simp only [List.length_append] at h hbytes
  split at h
  · split at h
    · simp at h
    · next hhead =>
      obtain rfl := Option.some.inj h
      have hpos : 0 < head.length := List.length_pos_iff.mpr fun he => hhead (.inr he)
      simp only [List.length_nil]
      omega
  · next hne =>
    obtain ⟨init, last, hparts, hlast⟩ := trimParts_eq_concat hne
    obtain rfl := Option.some.inj h
    have hkept := length_joinNames_le (trimParts_isPrefixOf init).sublist
    have hbody := length_joinNames_le (trimParts_isPrefixOf (body.splitOn slash)).sublist
    rw [joinNames_splitOn, hparts] at hbody
    have hcut : (joinNames init).length < (joinNames (init ++ [last])).length := by
      have hpos := List.length_pos_iff.mpr hlast
      by_cases hnil : init = []
      · simpa [hnil] using hpos
      · rw [joinNames_append_singleton hnil, List.length_append, List.length_cons]
        omega
    rw [hparts, List.dropLast_concat, List.length_append]
    omega

/-- The parent of a relative path is relative, and there is none only above the empty one. -/
lemma exists_parent? (hrel : p.isAbsolute = false) (hne : p.bytes ≠ []) :
    ∃ q, p.parent? = some q ∧ q.isAbsolute = false := by
  obtain ⟨first, rest, hsplit, hfirst⟩ := exists_first_part hrel hne
  unfold parent?
  by_cases hdot : p.startsWithDot = true
  · -- the dot in front stays
    obtain ⟨body, hbody⟩ : ∃ body, p.bytes = dot :: body := by
      have hpart : first = [dot] := by simpa [startsWithDot, parts, hsplit] using hdot
      have hjoin := joinNames_splitOn p.bytes
      rw [hsplit, hpart] at hjoin
      rcases rest with _ | ⟨second, rest⟩
      · exact ⟨[], hjoin.symm⟩
      · exact ⟨_, hjoin.symm.trans (joinNames_cons _ (by simp))⟩
    rw [splitHead_of_cons hbody (.inr hdot)]
    simp only [hrel, Bool.false_eq_true, List.cons_ne_nil, or_self, if_false]
    split
    · exact ⟨_, rfl, rfl⟩
    · exact ⟨_, rfl, rfl⟩
  · have hhead : p.splitHead = ([], p.bytes) := by rw [splitHead, if_neg (by simp [hrel, hdot])]
    have hkept : trimParts (p.bytes.splitOn slash) ≠ [] := by
      intro hnil
      obtain ⟨dots, hparts, hdots⟩ := exists_trimParts (p.bytes.splitOn slash)
      rw [hnil, hsplit, List.nil_append] at hparts
      rcases hdots first (hparts ▸ List.mem_cons_self) with h | h
      · exact hfirst h
      · exact hdot (by simp [startsWithDot, parts, hsplit, h])
    obtain ⟨init, last, hparts, -⟩ := trimParts_eq_concat hkept
    -- what is kept of the parts begins with the first
    have hprefix : trimParts init <+: first :: rest := by
      rw [← hsplit]
      refine ((trimParts_isPrefixOf init).trans ?_).trans (trimParts_isPrefixOf _)
      rw [hparts]
      exact List.prefix_append _ _
    obtain ⟨later, hlater⟩ := hprefix
    refine ⟨⟨joinNames (trimParts init)⟩, ?_, ?_⟩
    · rw [hhead]
      simp only [hparts, List.nil_append]
      split
      · next hnil => exact absurd hnil (by simp)
      · rw [List.dropLast_concat]
    · rcases hkeep : trimParts init with _ | ⟨part, kept⟩
      · rfl
      · rw [hkeep, List.cons_append] at hlater
        obtain ⟨rfl, -⟩ := List.cons.inj hlater
        have hslash : part ∈ p.bytes.splitOn slash := hsplit ▸ List.mem_cons_self
        exact isAbsolute_of_parts rfl hfirst (slash_notMem_of_mem_splitOn hslash)

/-- As long as the number of steps exceeds the length of the path, it makes no difference. -/
lemma parentsUpTo_of_length_lt {n m : Nat} (hn : p.bytes.length < n) (hm : p.bytes.length < m) :
    parentsUpTo n p = parentsUpTo m p := by
  induction n generalizing p m with
  | zero => omega
  | succ n ih =>
    obtain ⟨m, rfl⟩ : ∃ k, m = k + 1 := ⟨m - 1, by omega⟩
    unfold parentsUpTo
    cases hq : p.parent? with
    | none => rfl
    | some q =>
      have hlt := length_lt_of_parent? hq
      simp only
      rw [ih (p := q) (m := m) (by omega) (by omega)]

lemma parents_of_parent? (h : p.parent? = some q) : p.parents = q :: q.parents := by
  have hlt := length_lt_of_parent? h
  rw [parents, parentsUpTo, h]
  simp only
  rw [parents, parentsUpTo_of_length_lt (by omega) (Nat.lt_succ_self _)]

end Path

namespace Ignore

variable {line : String} {lines : List String} {level : Bytes × Bool} {fs : FileSystem}
  {root : Path} {p : Patterns} {rules : List Rule} {r : Rule} {name : Bytes} {isDirectory : Bool}

/-! ### Levels -/

/-- The levels at which a name is asked about: first the name, which may be that of a directory, and
then its parents, which are directories, up to the empty name. -/
inductive Outwards : Bytes × Bool → List (Bytes × Bool) → Prop
  | top (isDirectory : Bool) : Outwards ([], isDirectory) [([], isDirectory)]
  | up {name : Bytes} {isDirectory : Bool} {parent : Path} {levels : List (Bytes × Bool)}
    (hparent : Path.parent? ⟨name⟩ = some parent) (above : Outwards (parent.bytes, true) levels) :
    Outwards (name, isDirectory) ((name, isDirectory) :: levels)

lemma Outwards.levels_eq {levels : List (Bytes × Bool)} (h : Outwards (name, isDirectory) levels) :
    levels = Patterns.levels name isDirectory := by
  generalize hstart : (name, isDirectory) = start at h
  induction h generalizing name isDirectory with
  | top d =>
    obtain ⟨rfl, rfl⟩ := Prod.mk.inj hstart
    rfl
  | up hparent above ih =>
    obtain ⟨rfl, rfl⟩ := Prod.mk.inj hstart
    rw [Patterns.levels, Path.parents_of_parent? hparent, List.map_cons, ih rfl]
    rfl

/-- **From a relative name the way up ends at the empty name.** -/
theorem outwards_levels (h : Path.isAbsolute ⟨name⟩ = false) (isDirectory : Bool) :
    Outwards (name, isDirectory) (Patterns.levels name isDirectory) := by
  induction hlength : name.length using Nat.strongRecOn generalizing name isDirectory with
  | _ length ih =>
    by_cases hnil : name = []
    · subst hnil
      exact .top isDirectory
    · obtain ⟨q, hq, hrel⟩ := Path.exists_parent? (p := ⟨name⟩) h hnil
      have hlt : q.bytes.length < name.length := Path.length_lt_of_parent? hq
      have habove := ih q.bytes.length (by omega) hrel true rfl
      rw [Patterns.levels, Path.parents_of_parent? hq, List.map_cons]
      exact .up hq habove

/-! ### Lines that speak about a level -/

/-- Blank lines and comments never speak. -/
def Silent (line : String) : Prop :=
  line.toList.head? = some '#' ∨ ∀ c ∈ line.toList, Text.isBlank c = true

/-- A slash at the end of a line asks for directories, if it is not the slash in front. -/
def AsksForDirectories (line : String) : Prop :=
  (trimLine line.toList).getLast? = some '/' ∧ trimLine line.toList ≠ ['/']
    ∧ trimLine line.toList ≠ ['!', '/']

/-- The rule that a line stands for. -/
def ruleOf? (line : String) : Option Rule :=
  match Rule.ofLine? line with
  | .ok rule? => rule?
  | .error _ => none

/-- The line speaks about a name at its level. -/
structure Speaks (line : String) (level : Bytes × Bool) : Prop where
  loud : ¬ Silent line
  directory : AsksForDirectories line → level.2 = true
  glob : ∃ r, ruleOf? line = some r ∧ r.pattern.isMatch level.1 = true

lemma getLast?_body_markingOf {l : List Char} (hnil : (markingOf l).body ≠ []) :
    (markingOf l).body.getLast? = l.getLast? := by
  obtain ⟨marks, hmarks⟩ : ∃ marks, l = marks ++ (markingOf l).body := by
    unfold markingOf
    split
    · exact ⟨['\\'], rfl⟩
    · exact ⟨['\\'], rfl⟩
    · exact ⟨['!', '/'], rfl⟩
    · exact ⟨['!'], rfl⟩
    · exact ⟨['/'], rfl⟩
    · exact ⟨[], rfl⟩
  conv_rhs => rw [hmarks, List.getLast?_append_of_ne_nil _ hnil]

/-- Without a pattern, a line that begins with a mark consists of it. -/
lemma eq_of_body_markingOf {l : List Char} (hnil : (markingOf l).body = []) (hl : l ≠ []) :
    l = ['!', '/'] ∨ l = ['!'] ∨ l = ['/'] := by
  unfold markingOf at hnil
  split at hnil <;> simp_all

/-- A rule asks for directories exactly if its line does. -/
lemma directoriesOnly_of_ofLine? (h : Rule.ofLine? line = .ok (some r)) :
    r.directoriesOnly = true ↔ AsksForDirectories line := by
  unfold Rule.ofLine? at h
  simp only at h
  split at h
  · simp at h
  · split at h
    · simp at h
    · next hempty =>
      split at h
      · simp at h
      · obtain rfl := Option.some.inj (Except.ok.inj h)
        have hne : trimLine line.toList ≠ [] := by simpa using hempty
        have hcut : (cutSlash (markingOf (trimLine line.toList)).body).1 = true
            ↔ (markingOf (trimLine line.toList)).body.getLast? = some '/' := by
          unfold cutSlash
          split <;> simp_all
        show (cutSlash (markingOf (trimLine line.toList)).body).1 = true ↔ _
        rw [hcut, AsksForDirectories]
        by_cases hnil : (markingOf (trimLine line.toList)).body = []
        · rw [hnil]
          rcases eq_of_body_markingOf hnil hne with hl | hl | hl <;> simp [hl]
        · rw [getLast?_body_markingOf hnil]
          refine ⟨fun hlast => ⟨hlast, ?_, ?_⟩, fun h => h.1⟩ <;>
            · intro hl
              rw [hl] at hnil
              exact hnil rfl

lemma trimLine_eq_nil_iff {l : List Char} :
    trimLine l = [] ↔ ∀ c ∈ l, Text.isBlank c = true := by
  unfold trimLine
  split
  · next hescaped =>
    -- the backslash is no blank
    have hmem : '\\' ∈ l :=
      (List.isSuffixOf_iff_suffix.mp hescaped).subset List.mem_cons_self
    constructor
    · rintro rfl
      simp at hmem
    · intro hblank
      exact absurd (hblank _ hmem) (by decide)
  · rw [Text.trimEnd, List.reverse_eq_nil_iff, List.dropWhile_eq_nil_iff]
    simp

/-- Silent lines are those that stand for no rule. -/
lemma silent_iff_of_ofLine? {rule? : Option Rule} (h : Rule.ofLine? line = .ok rule?) :
    Silent line ↔ rule? = none := by
  unfold Rule.ofLine? at h
  rw [Silent, ← trimLine_eq_nil_iff]
  simp only at h
  split at h
  · next hcomment =>
    obtain rfl := Except.ok.inj h
    simp [hcomment]
  · next hcomment =>
    split at h
    · next hempty =>
      obtain rfl := Except.ok.inj h
      simpa using Or.inr hempty
    · next hempty =>
      split at h
      · simp at h
      · obtain rfl := Except.ok.inj h
        simpa using ⟨hcomment, by simpa using hempty⟩

/-- A line speaks where its rule applies. -/
lemma speaks_iff {rule? : Option Rule} (h : Rule.ofLine? line = .ok rule?) :
    Speaks line level ↔ rule?.any (fun r => r.applies level.1 level.2) = true := by
  have hrule : ruleOf? line = rule? := by rw [ruleOf?, h]
  cases rule? with
  | none =>
    refine ⟨fun hspeaks => absurd ((silent_iff_of_ofLine? h).mpr rfl) hspeaks.loud, by simp⟩
  | some r =>
    have hloud : ¬ Silent line := by simp [silent_iff_of_ofLine? h]
    have hasks := directoriesOnly_of_ofLine? h
    simp only [Option.any_some, Rule.applies, Bool.and_eq_true, Bool.or_eq_true,
      Bool.not_eq_true']
    constructor
    · rintro ⟨-, hdirectory, r', hr', hmatch⟩
      obtain rfl := Option.some.inj (hrule.symm.trans hr')
      refine ⟨hmatch, ?_⟩
      by_cases honly : r.directoriesOnly = true
      · exact .inr (hdirectory (hasks.mp honly))
      · exact .inl (by simpa using honly)
    · rintro ⟨hmatch, hdirectory⟩
      refine ⟨hloud, fun h => ?_, r, hrule, hmatch⟩
      exact hdirectory.resolve_left (by simp [hasks.mpr h])

/-! ### The lines together -/

/-- Each line is read, as a rule or as none. -/
def AreRead (lines : List String) : Prop := ∀ line ∈ lines, ∃ rule?, Rule.ofLine? line = .ok rule?

/-- The last line that speaks at a level says that the name is left out. -/
def LeavesOut (lines : List String) (level : Bytes × Bool) : Prop :=
  ∃ earlier line later, lines = earlier ++ line :: later ∧ Speaks line level
    ∧ (∀ l ∈ later, ¬ Speaks l level) ∧ ¬ Reincluding line

lemma leavesOut_concat : LeavesOut (lines ++ [line]) level ↔
    Speaks line level ∧ ¬ Reincluding line ∨ ¬ Speaks line level ∧ LeavesOut lines level := by
  constructor
  · rintro ⟨earlier, l, later, heq, hspeaks, hlater, hplain⟩
    rcases List.eq_nil_or_concat' later with rfl | ⟨later, last, rfl⟩
    · obtain ⟨-, rfl⟩ := List.append_singleton_inj.mp heq
      exact .inl ⟨hspeaks, hplain⟩
    · rw [← List.cons_append, ← List.append_assoc] at heq
      obtain ⟨rfl, rfl⟩ := List.append_singleton_inj.mp heq
      exact .inr ⟨hlater line (by simp), earlier, l, later, rfl, hspeaks,
        fun x hx => hlater x (List.mem_append_left _ hx), hplain⟩
  · rintro (⟨hspeaks, hplain⟩ | ⟨hquiet, earlier, l, later, rfl, hspeaks, hlater, hplain⟩)
    · exact ⟨lines, line, [], rfl, hspeaks, by simp, hplain⟩
    · refine ⟨earlier, l, later ++ [line], by simp, hspeaks, fun x hx => ?_, hplain⟩
      rcases List.mem_append.mp hx with hx | hx
      · exact hlater x hx
      · exact List.mem_singleton.mp hx ▸ hquiet

/-- **At each level the last line that speaks decides**, and if none does, nothing is decided. -/
theorem ruling?_of_compile (h : Patterns.compile root lines = .ok p) (level : Bytes × Bool) :
    (Patterns.ruling? p.rules level.1 level.2 = none ↔ ∀ line ∈ lines, ¬ Speaks line level)
      ∧ (Patterns.ruling? p.rules level.1 level.2 = some true ↔ LeavesOut lines level) := by
  induction lines using List.reverseRecOn generalizing p with
  | nil =>
    obtain rfl := Except.ok.inj h
    simp [Patterns.ruling?, LeavesOut]
  | append_singleton lines line ih =>
    obtain ⟨q, rule?, hq, hrule, rfl⟩ := compile_concat h
    obtain ⟨hnone, htrue⟩ := ih hq
    have hspeaks : Speaks line level ↔ rule?.any (fun r => r.applies level.1 level.2) = true :=
      speaks_iff hrule
    rw [leavesOut_concat, List.forall_mem_append, List.forall_mem_singleton, ← hnone, ← htrue]
    cases rule? with
    | none =>
      have hquiet : ¬ Speaks line level := by simp [hspeaks]
      simp [hquiet]
    | some r =>
      rw [Option.any_some] at hspeaks
      have hmark := reincludes_of_ofLine? hrule
      rw [Option.toList_some, ruling?_concat, ← hmark]
      by_cases happlies : r.applies level.1 level.2 = true
      · simp [hspeaks, happlies]
      · simp [hspeaks, happlies]

/-- **The nearest level at which a line speaks decides.** -/
theorem isIgnored_iff (hcompile : Patterns.compile root lines = .ok p)
    (hrel : Path.isAbsolute ⟨p.relative name⟩ = false) :
    p.isIgnored name isDirectory = true ↔ ∃ nearer level farther,
      Outwards (p.relative name, isDirectory) (nearer ++ level :: farther)
        ∧ (∀ l ∈ nearer, ∀ line ∈ lines, ¬ Speaks line l) ∧ LeavesOut lines level := by
  have hdecided : p.isIgnored name isDirectory = true ↔
      (Patterns.levels (p.relative name) isDirectory).findSome?
        (fun l => Patterns.ruling? p.rules l.1 l.2) = some true := by
    rw [Patterns.isIgnored]
    cases (Patterns.levels (p.relative name) isDirectory).findSome? _ <;> simp
  rw [hdecided, List.findSome?_eq_some_iff]
  constructor
  · rintro ⟨nearer, level, farther, hlevels, hlevel, hnearer⟩
    refine ⟨nearer, level, farther, hlevels ▸ outwards_levels hrel isDirectory,
      fun l hl => (ruling?_of_compile hcompile l).1.mp (hnearer l hl),
      (ruling?_of_compile hcompile level).2.mp hlevel⟩
  · rintro ⟨nearer, level, farther, hup, hnearer, hlevel⟩
    exact ⟨nearer, level, farther, hup.levels_eq.symm,
      (ruling?_of_compile hcompile level).2.mpr hlevel,
      fun l hl => (ruling?_of_compile hcompile l).1.mpr (hnearer l hl)⟩

/-! ### Ignore files -/

/-- A name that begins with no slash, also after the dot that may stand in front of it. -/
structure IsRelative (name : Bytes) : Prop where
  plain : name.head? ≠ some slash
  dotted : ¬ [dot, slash, slash] <+: name

lemma relative_of_isRelative (hroot : root.isAbsolute = true)
    (hcompile : Patterns.compile root lines = .ok p) (h : IsRelative name) :
    p.relative name = Patterns.dropStart Patterns.dotSlash name
      ∧ Path.isAbsolute ⟨p.relative name⟩ = false := by
  have hslash : root.bytes.head? = some slash := by simpa [Path.isAbsolute] using hroot
  have hp : p.root.head? = some slash := by
    rwa [root_of_compile hcompile, dropStart_eq_self (not_starts_of_head? rfl ?_)]
    rw [hslash]
    decide
  have hname : (Patterns.dropStart Patterns.dotSlash name).head? ≠ some slash := by
    unfold Patterns.dropStart
    split
    · next rest hrest =>
      rw [Path.isPrefixOf?_eq_some_iff] at hrest
      intro hhead
      obtain ⟨more, rfl⟩ := List.head?_eq_some_iff.mp hhead
      exact h.dotted ⟨more, hrest.symm⟩
    · exact h.plain
  have hrelative : p.relative name = Patterns.dropStart Patterns.dotSlash name := by
    unfold Patterns.relative
    simp only
    split
    · rfl
    · split
      · next rest hrest =>
        -- the root begins with a slash, and the name does not
        exact absurd ⟨rest, (Path.isPrefixOf?_eq_some_iff.mp hrest).symm⟩
          (not_starts_of_head? hp hname)
      · rfl
  exact ⟨hrelative, by simpa [hrelative, Path.isAbsolute] using hname⟩

/-- What a file holds that is there, and that one is not there. -/
def Holds (fs : FileSystem) (file : Path) : Option String → Prop
  | some text => fs.readText file = .ok text
  | none => ∃ e, fs.readText file = .error e ∧ e.isNotFound = true

/-- The lines of the files that are there, in the order of the files. -/
def linesOf (texts : List (Option String)) : List String :=
  texts.reduceOption.flatMap Text.textLines

lemma readFiles_lines {files : List Path} {texts : List (Option String)}
    (h : List.Forall₂ (fun file => Holds fs (root.join file)) files texts) :
    (readFiles fs root files).lines = .ok (linesOf texts) := by
  induction h with
  | nil => rfl
  | @cons file text files texts hfile hfiles ih =>
    unfold readFiles
    cases text with
    | some text =>
      rw [show fs.readText (root.join file) = .ok text from hfile]
      simp only [ih, Except.map]
      rw [linesOf, linesOf, List.reduceOption_cons_of_some, List.flatMap_cons]
    | none =>
      obtain ⟨e, hread, hmissing⟩ := hfile
      rw [hread]
      simp only [hmissing, if_true, ih]
      rw [linesOf, linesOf, List.reduceOption_cons_of_none]

/-- Lines that are all read make up a set of rules. -/
lemma exists_compile (root : Path) (h : AreRead lines) :
    ∃ p, Patterns.compile root lines = .ok p := by
  obtain ⟨rules, hrules⟩ : ∃ rules, lines.mapM Rule.ofLine? = .ok rules := by
    induction lines with
    | nil => exact ⟨[], rfl⟩
    | cons line lines ih =>
      obtain ⟨rule?, hrule⟩ := h line List.mem_cons_self
      obtain ⟨rules, hrules⟩ := ih fun l hl => h l (List.mem_cons_of_mem _ hl)
      exact ⟨rule? :: rules, by rw [List.mapM_cons, hrule, hrules]; rfl⟩
  exact ⟨_, by rw [Patterns.compile, hrules]; rfl⟩

/-- **The lines of all ignore files decide together.** Files that are missing are passed over, and
the lines of the others are compiled in the order of the files. Then a name is ignored exactly if,
at the nearest level at which any of the lines speaks, the last line that does is no line that
re-includes. The dot that may stand in front of a name is no level. -/
theorem ignored_by_nearest_level (hroot : root.isAbsolute = true) {files : List Path}
    {texts : List (Option String)}
    (hfiles : List.Forall₂ (fun file => Holds fs (root.join file)) files texts) :
    (load fs root files).1 = (Patterns.compile root (linesOf texts)).mapError .ignorePatterns
      ∧ (AreRead (linesOf texts) → ∃ p, (load fs root files).1 = .ok p
        ∧ ∀ name isDirectory, IsRelative name →
          (p.isIgnored name isDirectory = true ↔ ∃ nearer level farther,
            Outwards (Patterns.dropStart Patterns.dotSlash name, isDirectory)
              (nearer ++ level :: farther)
            ∧ (∀ l ∈ nearer, ∀ line ∈ linesOf texts, ¬ Speaks line l)
            ∧ LeavesOut (linesOf texts) level)) := by
  have hlines := readFiles_lines hfiles
  refine ⟨by simp only [load, hlines], fun hread => ?_⟩
  obtain ⟨p, hp⟩ := exists_compile root hread
  refine ⟨p, load_eq_ok_iff.mpr ⟨_, hlines, hp⟩, fun name isDirectory hname => ?_⟩
  obtain ⟨hrelative, habs⟩ := relative_of_isRelative hroot hp hname
  rw [isIgnored_iff hp habs, hrelative]

/-- Of three files one is missing. A directory is left out with what is in it, but for a file that a
later file takes back. -/
theorem ignored_by_nearest_level_taken_back :
    let file := fun (text : String) => Node.file ⟨0o644, 5, .root⟩ (Bytes.ofText text)
    let fs : FileSystem := ⟨.directory ⟨0o755, 0, .root⟩
      [(Bytes.ofText "i", file "# made\n*.log\nout/\n"), (Bytes.ofText "k", file "!keep.log\n")],
      [], 0, .root⟩
    let files := [Path.ofText "i", .ofText "j", .ofText "k"]
    let lines := ["# made", "*.log", "out/", "!keep.log"]
    ∃ p, (load fs (.ofText "/") files).1 = .ok p
      ∧ p.isIgnored (Bytes.ofText "out/keep.log") false = false
      ∧ p.isIgnored (Bytes.ofText "out/x") false = true
      ∧ ∃ nearer level farther,
        Outwards (Bytes.ofText "out/x", false) (nearer ++ level :: farther)
          ∧ (∀ l ∈ nearer, ∀ line ∈ lines, ¬ Speaks line l) ∧ LeavesOut lines level := by
  intro file fs files lines
  have hfiles : List.Forall₂ (fun file => Holds fs ((Path.ofText "/").join file)) files
      [some "# made\n*.log\nout/\n", none, some "!keep.log\n"] := by
    have hi : fs.readText ((Path.ofText "/").join (.ofText "i")) = .ok "# made\n*.log\nout/\n" := by
      decide +kernel
    have hj : fs.readText ((Path.ofText "/").join (.ofText "j")) = .error (.os .noEntry) := by
      decide +kernel
    have hk : fs.readText ((Path.ofText "/").join (.ofText "k")) = .ok "!keep.log\n" := by
      decide +kernel
    exact .cons hi (.cons ⟨_, hj, rfl⟩ (.cons hk .nil))
  have hlinesOf : linesOf [some "# made\n*.log\nout/\n", none, some "!keep.log\n"] = lines := by
    decide +kernel
  have hread : AreRead lines := by
    have hall : ∀ line ∈ lines, (Rule.ofLine? line).toBool = true := by decide +kernel
    intro line hline
    have hok := hall line hline
    cases hrule : Rule.ofLine? line with
    | error e => simp [hrule, Except.toBool] at hok
    | ok rule? => exact ⟨rule?, rfl⟩
  have hverdicts : ((load fs (.ofText "/") files).1.toOption.any fun p =>
      !p.isIgnored (Bytes.ofText "out/keep.log") false
        && p.isIgnored (Bytes.ofText "out/x") false) = true := by decide +kernel
  have hroot : (Path.ofText "/").isAbsolute = true := rfl
  have hloaded := (ignored_by_nearest_level hroot hfiles).2
  rw [hlinesOf] at hloaded
  obtain ⟨p, hp, hlevels⟩ := hloaded hread
  rw [hp] at hverdicts
  obtain ⟨hkept, hout⟩ : p.isIgnored (Bytes.ofText "out/keep.log") false = false
      ∧ p.isIgnored (Bytes.ofText "out/x") false = true := by
    simpa [Except.toOption] using hverdicts
  have hname : IsRelative (Bytes.ofText "out/x") := ⟨by decide, by decide⟩
  exact ⟨p, hp, hkept, hout, (hlevels _ false hname).mp hout⟩

end Ignore

end DeployClient
