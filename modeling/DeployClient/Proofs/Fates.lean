import DeployClient.Proofs.ImpliedParents

/-!
What becomes of everything that an archive run comes to.

An input outside of the working directory, a node that is visited and a directory above a file
that is given each get an entry, or something is told of them, or they are passed over. Which of
these it is depends on what has become of the others before.
-/

namespace DeployClient.Archive

open Tar (Member)

variable {fs : FileSystem} {base p q : Path} {n d : Node} {path name : Bytes} {kind : Kind}
  {m : Member} {patterns : Ignore.Patterns} {filesOnly : Bool} {w w' : Writer}

/-! ### Stops and fates -/

/-- What a run comes to on its way. -/
inductive Stop where
  | outside (input : Path)
  | visited (source : Path) (node : Node)
  | implied (source : Path) (node : Node)

/-- What becomes of it. -/
inductive Fate where
  | entry (m : Member)
  | told (d : Diagnostic)
  | silent

structure Turn where
  stop : Stop
  fate : Fate

namespace Fate

def member? : Fate → Option Member
  | entry m => some m
  | _ => none

def told? : Fate → Option Diagnostic
  | told d => some d
  | _ => none

end Fate

/-- The entries that the turns have led to. -/
def membersOf (turns : List Turn) : List Member := turns.filterMap fun t => t.fate.member?

/-- What has been told at the turns. -/
def toldOf (turns : List Turn) : List Diagnostic := turns.filterMap fun t => t.fate.told?

/-- The node at this path has been visited. -/
def VisitedIn (before : List Turn) (p : Path) : Prop := ∃ t ∈ before, ∃ n, t.stop = .visited p n

lemma membersOf_append (ts us : List Turn) :
    membersOf (ts ++ us) = membersOf ts ++ membersOf us :=
  List.filterMap_append

lemma toldOf_append (ts us : List Turn) : toldOf (ts ++ us) = toldOf ts ++ toldOf us :=
  List.filterMap_append

lemma membersOf_singleton (t : Turn) : membersOf [t] = t.fate.member?.toList := by
  cases h : t.fate.member? <;> simp [membersOf, h]

lemma toldOf_singleton (t : Turn) : toldOf [t] = t.fate.told?.toList := by
  cases h : t.fate.told? <;> simp [toldOf, h]

lemma visitedIn_append (ts us : List Turn) (p : Path) :
    VisitedIn (ts ++ us) p ↔ VisitedIn ts p ∨ VisitedIn us p := by
  simp only [VisitedIn, List.mem_append, or_and_right, exists_or]

/-! ### What fates there may be -/

section

variable (patterns : Ignore.Patterns) (filesOnly : Bool) (base : Path) (before : List Turn)

/-- A visit that leaves no trace: of a directory where only files are archived, if its place is
text, and the first one of the base. -/
def Quiet (p : Path) (n : Node) : Prop :=
  (filesOnly = true ∧ n.isDirectory = true ∧ ∃ path, Path.nameBelow base p = .named path)
    ∨ (p = base ∧ (Kind.ofNode? n).isSome ∧ ¬ VisitedIn before base)

/-- What is told of a node that is visited, and why. -/
inductive Explains (p : Path) (n : Node) : Diagnostic → Prop
  | notUnicode (h : Path.nameBelow base p = .notUnicode) : Explains p n (.notUnicode p)
  | unsupported {path : Bytes} (named : Path.nameBelow base p = .named path)
      (h : Kind.ofNode? n = none) : Explains p n (.unsupportedType path)
  | ignored {path : Bytes} (named : Path.nameBelow base p = .named path)
      (h : patterns.isIgnored path n.isDirectory = true) : Explains p n (.ignored path)
  | duplicate {path : Bytes} (named : Path.nameBelow base p = .named path)
      (h : nameIn filesOnly path ∈ (membersOf before).map Member.name) :
      Explains p n (.duplicate path)
  | again {path : Bytes} (named : Path.nameBelow base p = .named path) (hp : p = base)
      (h : VisitedIn before base) : Explains p n (.duplicate path)

/-- What may become of a node that is visited. -/
inductive Visited (p : Path) (n : Node) : Fate → Prop
  | entry {path : Bytes} {m : Member} (loud : ¬ Quiet filesOnly base before p n)
      (named : Path.nameBelow base p = .named path)
      (member : memberAs (nameIn filesOnly path) n = some m) : Visited p n (.entry m)
  | told {d : Diagnostic} (loud : ¬ Quiet filesOnly base before p n)
      (explains : Explains patterns filesOnly base before p n d) : Visited p n (.told d)
  | silent (quiet : Quiet filesOnly base before p n) : Visited p n .silent

/-- What may become of a directory above a file that is given. -/
inductive Implies (q : Path) (d : Node) : Fate → Prop
  | entry {m : Member} (named : Path.nameBelow base q = .named m.name)
      (member : memberAs m.name d = some m) : Implies q d (.entry m)
  | ignored {name : Bytes} (named : Path.nameBelow base q = .named name)
      (h : patterns.isIgnored name true = true) : Implies q d (.told (.ignored name))
  | there {m : Member} (named : Path.nameBelow base q = .named m.name)
      (member : memberAs m.name d = some m) (h : m ∈ membersOf before) : Implies q d .silent

/-- A turn is as it should be after those before it. -/
inductive Fair : Turn → Prop
  | outside (input : Path) : Fair ⟨.outside input, .told (.outsideDirectory input)⟩
  | visited {p : Path} {n : Node} {fate : Fate}
      (h : Visited patterns filesOnly base before p n fate) : Fair ⟨.visited p n, fate⟩
  | implied {q : Path} {d : Node} {fate : Fate} (h : Implies patterns base before q d fate) :
      Fair ⟨.implied q d, fate⟩

end

/-! ### What is told names what it is told of -/

/-- How a stop is called: by its place below the base, or by its path if that is no text. -/
def Stop.label (base : Path) : Stop → String
  | .outside input => s!"\"{input.display}\""
  | .visited p _ | .implied p _ =>
    match Path.nameBelow base p with
    | .named path => s!"\"{Text.Utf8.decodeLossy path}\""
    | _ => p.display

/-- The text stands in the message. -/
def Mentions (d : Diagnostic) (text : String) : Prop :=
  ∃ front back, d.message = front ++ text ++ back

lemma quoted_append {front back opening closing : String} (ho : front ++ "\"" = opening)
    (hc : "\"" ++ back = closing) (label : String) :
    opening ++ label ++ closing = front ++ ("\"" ++ label ++ "\"") ++ back := by
  rw [← ho, ← hc]
  simp only [String.append_assoc]

lemma mentions_outsideDirectory (input : Path) :
    Mentions (.outsideDirectory input) s!"\"{input.display}\"" := by
  refine ⟨"WARNING: skipping file ",
    " since you cannot add files outside the current directory", ?_⟩
  have hend : "\" since you cannot add files outside the " ++ "current directory"
      = "\" since you cannot add files outside the current directory" := by decide
  have hmessage : (Diagnostic.outsideDirectory input).message
      = "WARNING: skipping file \"" ++ input.display
        ++ ("\" since you cannot add files outside the " ++ "current directory") :=
    String.append_assoc ..
  rw [hmessage, hend]
  exact quoted_append (by decide) (by decide) _

lemma mentions_unsupportedType (path : Bytes) :
    Mentions (.unsupportedType path) s!"\"{Text.Utf8.decodeLossy path}\"" :=
  ⟨"WARNING: Skipping file ", " due to unsupported file type.",
    quoted_append (by decide) (by decide) _⟩

lemma mentions_ignored (path : Bytes) :
    Mentions (.ignored path) s!"\"{Text.Utf8.decodeLossy path}\"" := by
  refine ⟨"File ", " matches with some pattern provided in the ignore file... skipping it.", ?_⟩
  have hend : "\" matches with some pattern provided in the ignore file... " ++ "skipping it."
      = "\" matches with some pattern provided in the ignore file... skipping it." := by decide
  have hmessage : (Diagnostic.ignored path).message = "File \"" ++ Text.Utf8.decodeLossy path
      ++ ("\" matches with some pattern provided in the ignore file... " ++ "skipping it.") :=
    String.append_assoc ..
  rw [hmessage, hend]
  exact quoted_append (by decide) (by decide) _

lemma mentions_duplicate (path : Bytes) :
    Mentions (.duplicate path) s!"\"{Text.Utf8.decodeLossy path}\"" :=
  ⟨"Skipping file ", " as it already exists in the current directory.",
    quoted_append (by decide) (by decide) _⟩

lemma label_of_named (h : Path.nameBelow base p = .named path) (n : Node) :
    Stop.label base (.visited p n) = s!"\"{Text.Utf8.decodeLossy path}\"" := by
  rw [Stop.label, h]

variable {before : List Turn} {t : Turn} {x : Diagnostic}

lemma Explains.mentions (h : Explains patterns filesOnly base before p n x) :
    Mentions x (Stop.label base (.visited p n)) := by
  cases h with
  | notUnicode h =>
    rw [Stop.label, h]
    exact ⟨"File ", " contains non-unicode symbols in path", rfl⟩
  | unsupported named h =>
    rw [label_of_named named]
    exact mentions_unsupportedType _
  | ignored named h =>
    rw [label_of_named named]
    exact mentions_ignored _
  | duplicate named h =>
    rw [label_of_named named]
    exact mentions_duplicate _
  | again named hp h =>
    rw [label_of_named named]
    exact mentions_duplicate _

/-- **What is told at a turn names what it is told of.** -/
theorem Fair.mentions (h : Fair patterns filesOnly base before t) (hx : t.fate.told? = some x) :
    Mentions x (t.stop.label base) := by
  cases h with
  | outside input =>
    obtain rfl := Option.some.inj hx
    exact mentions_outsideDirectory input
  | visited h =>
    cases h with
    | told loud explains =>
      obtain rfl := Option.some.inj hx
      exact explains.mentions
    | _ => simp [Fate.told?] at hx
  | implied h =>
    cases h with
    | @ignored name named h =>
      obtain rfl := Option.some.inj hx
      rw [Stop.label, named]
      exact mentions_ignored name
    | _ => simp [Fate.told?] at hx

/-! ### Nodes that get no entry -/

lemma Sighted.nameIn_eq_baseName_iff (hp : Sighted fs base p n)
    (h : Path.nameBelow base p = .named path) (filesOnly : Bool) :
    nameIn filesOnly path = baseName ↔ p = base := by
  obtain ⟨bs, rest, hbelow, rfl⟩ := Path.Below.of_named hp.normalBase hp.normal h
  have hrest : ∀ m ∈ rest, Path.IsName m := fun m hm => hbelow.isName m (List.mem_append_right _ hm)
  have hname : nameIn filesOnly (Path.nameOf rest) = baseName ↔ rest = [] := by
    cases filesOnly with
    | true => exact Path.lastPart_nameOf_eq_baseName_iff hrest
    | false => exact Path.nameOf_eq_baseName_iff hrest
  rw [hname, hbelow.base, hbelow.path]
  constructor
  · rintro rfl
    rw [List.append_nil]
  · intro he
    have hbs : ∀ m ∈ bs, Path.IsName m := fun m hm => hbelow.isName m (List.mem_append_left _ hm)
    exact List.append_right_eq_self.mp (Path.ofNames_injective hbelow.isName hbs he)

/-- A node that is passed over: what becomes of it, and the writer after it. -/
inductive PassedOver (w : Writer) (base p : Path) (n : Node) : Fate → Writer → Prop
  | notUnicode (h : Path.nameBelow base p = .notUnicode) :
      PassedOver w base p n (.told (.notUnicode p)) (w.tell (.notUnicode p))
  | unsupported {path : Bytes} (named : Path.nameBelow base p = .named path)
      (h : Kind.ofNode? n = none) :
      PassedOver w base p n (.told (.unsupportedType path)) (w.tell (.unsupportedType path))
  | omitted {path : Bytes} (named : Path.nameBelow base p = .named path)
      (hd : n.isDirectory = true) (h : w.filesOnly = true) : PassedOver w base p n .silent w
  | ignored {path : Bytes} (named : Path.nameBelow base p = .named path) (hne : path ≠ baseName)
      (listed : ¬ (n.isDirectory = true ∧ w.filesOnly = true))
      (h : w.patterns.isIgnored path n.isDirectory = true) :
      PassedOver w base p n (.told (.ignored path)) (w.tell (.ignored path))
  | duplicate {path : Bytes} {kind : Kind}
      (passes : Passes w.patterns w.filesOnly base p n path kind)
      (held : nameIn w.filesOnly path ∈ w.claims.names) (e : Event) :
      PassedOver w base p n (.told (.duplicate path))
        ((w.note (.event e)).tell (.duplicate path))
  | base {path : Bytes} {kind : Kind} (passes : Passes w.patterns w.filesOnly base p n path kind)
      (named : nameIn w.filesOnly path = baseName) (free : baseName ∉ w.claims.names) :
      PassedOver w base p n .silent (w.claim baseName ⟨kind, p⟩)

lemma judge_of_holder {first : Claimant} (hpass : Passes w.patterns w.filesOnly base p n path kind)
    (hfirst : w.claims.holder? (nameIn w.filesOnly path) = some first) :
    w.judge p base n false = .duplicate (nameIn w.filesOnly path) path first.source := by
  have hname : w.archiveName path = nameIn w.filesOnly path := rfl
  rw [judge_of_passes hpass, Writer.judgeName]
  simp [hname, hfirst]

lemma judge_of_baseName (hpass : Passes w.patterns w.filesOnly base p n path kind)
    (hname : nameIn w.filesOnly path = baseName) (hfree : baseName ∉ w.claims.names) :
    w.judge p base n false = .claims baseName kind := by
  have hholder : w.claims.holder? (w.archiveName path) = none := by
    rw [show w.archiveName path = baseName from hname]
    exact Claims.holder?_eq_none_iff.mpr hfree
  rw [judge_of_passes hpass, Writer.judgeName]
  simp only [hholder]
  exact congrArg (Verdict.claims · kind) hname

/-- **A node that is seen is passed over or let in.** -/
theorem accept_cases (hp : Sighted fs base p n) (w : Writer) :
    (∃ fate v, accept fs p base n false w = .ok none v ∧ PassedOver w base p n fate v)
      ∨ ∃ path kind, Admits w base p n path kind := by
  cases hnamed : Path.nameBelow base p with
  | outside => exact absurd hnamed hp.not_outside
  | notUnicode =>
    have hjudge : w.judge p base n false = .rejected (.notUnicode p) := by
      simp [Writer.judge, hnamed]
    exact .inl ⟨_, _, accept_of_rejected hjudge, .notUnicode hnamed⟩
  | named path =>
    cases hkind : Kind.ofNode? n with
    | none =>
      have hjudge : w.judge p base n false = .rejected (.unsupportedType path) := by
        simp [Writer.judge, hnamed, hkind]
      exact .inl ⟨_, _, accept_of_rejected hjudge, .unsupported hnamed hkind⟩
    | some kind =>
      have hdirectory := decide_eq_isDirectory hkind
      by_cases hlisted : kind = .directory ∧ w.filesOnly = true
      · have hjudge : w.judge p base n false = .silent := by
          simp [Writer.judge, hnamed, hkind, hlisted]
        refine .inl ⟨_, _, accept_of_silent hjudge, .omitted hnamed ?_ hlisted.2⟩
        rw [← hdirectory, hlisted.1]
        rfl
      · by_cases hignored : path ≠ baseName ∧ w.patterns.isIgnored path (kind = .directory) = true
        · have hjudge : w.judge p base n false = .rejected (.ignored path) := by
            simp only [Writer.judge, hnamed, hkind, if_neg hlisted, if_pos hignored]
          refine .inl ⟨_, _, accept_of_rejected hjudge, .ignored hnamed hignored.1 ?_ ?_⟩
          · rw [← hdirectory]
            simpa using hlisted
          · rw [← hdirectory]
            exact hignored.2
        · have hpass : Passes w.patterns w.filesOnly base p n path kind :=
            ⟨hnamed, hkind, hlisted, fun hne => by simpa [hne] using hignored⟩
          rcases hholder : w.claims.holder? (nameIn w.filesOnly path) with _ | first
          · have hfree := Claims.holder?_eq_none_iff.mp hholder
            by_cases hbase : nameIn w.filesOnly path = baseName
            · rw [hbase] at hfree
              exact .inl ⟨_, _, accept_of_base (judge_of_baseName hpass hbase hfree),
                .base hpass hbase hfree⟩
            · exact .inr ⟨path, kind, hpass, hbase, hfree⟩
          · exact .inl ⟨_, _, accept_of_duplicate (judge_of_holder hpass hholder),
              .duplicate hpass (Claims.mem_names_of_holder? hholder) _⟩

end DeployClient.Archive
