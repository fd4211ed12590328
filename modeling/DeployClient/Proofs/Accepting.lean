import DeployClient.Proofs.WriterRuns

/-!
Accepting a node: what passes, under which name, and what is claimed for it.

A node is judged by its name only after all other filters have let it pass. So one that passes
and is not let in has met a claim of its name.
-/

namespace DeployClient.Archive

open Tar (Member)

/-! ### What passes the filters -/

/-- The name that a path gets. -/
def nameIn (filesOnly : Bool) (path : Bytes) : Bytes :=
  if filesOnly then Path.lastPart path else path

lemma nameIn_of_full {filesOnly : Bool} (h : filesOnly = false) (path : Bytes) :
    nameIn filesOnly path = path := by
  rw [h]
  rfl

/-- The filters that do not look at the names taken let the node pass, as `path`. -/
structure Passes (patterns : Ignore.Patterns) (filesOnly : Bool) (base source : Path) (node : Node)
    (path : Bytes) (kind : Kind) : Prop where
  named : Path.nameBelow base source = .named path
  ofNode : Kind.ofNode? node = some kind
  listed : ¬ (kind = .directory ∧ filesOnly = true)
  kept : path ≠ baseName → patterns.isIgnored path (kind = .directory) = false

variable {w : Writer} {fs : FileSystem} {source base : Path} {node : Node} {implied : Bool}

lemma Passes.unique {patterns : Ignore.Patterns} {filesOnly : Bool} {path path' : Bytes}
    {kind kind' : Kind} (h : Passes patterns filesOnly base source node path kind)
    (h' : Passes patterns filesOnly base source node path' kind') : path = path' ∧ kind = kind' :=
  ⟨Naming.named.inj (h.named.symm.trans h'.named),
    Option.some.inj (h.ofNode.symm.trans h'.ofNode)⟩

lemma judge_of_passes {path : Bytes} {kind : Kind}
    (h : Passes w.patterns w.filesOnly base source node path kind) :
    w.judge source base node implied = w.judgeName path kind implied := by
  have hkept :
      ¬ (path ≠ baseName ∧ w.patterns.isIgnored path (decide (kind = .directory)) = true) :=
    fun ⟨hne, hi⟩ => by simp [h.kept hne] at hi
  simp only [Writer.judge, h.named, h.ofNode, if_neg h.listed, if_neg hkept]

/-- A node is judged by its name only after it has passed all filters before. -/
lemma passes_of_judge {v : Verdict} (h : w.judge source base node implied = v)
    (hv : (∃ name kind, v = .claims name kind)
      ∨ ∃ name path first, v = .duplicate name path first) :
    ∃ path kind, Passes w.patterns w.filesOnly base source node path kind
      ∧ w.judgeName path kind implied = v := by
  unfold Writer.judge at h
  split at h
  · rcases hv with ⟨_, _, rfl⟩ | ⟨_, _, _, rfl⟩ <;> simp at h
  · rcases hv with ⟨_, _, rfl⟩ | ⟨_, _, _, rfl⟩ <;> simp at h
  · next path hnamed =>
    split at h
    · rcases hv with ⟨_, _, rfl⟩ | ⟨_, _, _, rfl⟩ <;> simp at h
    · next kind hkind =>
      split at h
      · rcases hv with ⟨_, _, rfl⟩ | ⟨_, _, _, rfl⟩ <;> simp at h
      · next hlisted =>
        split at h
        · rcases hv with ⟨_, _, rfl⟩ | ⟨_, _, _, rfl⟩ <;> simp at h
        · next hkept =>
          refine ⟨path, kind, ⟨hnamed, hkind, hlisted, fun hne => ?_⟩, h⟩
          simpa using fun hi => hkept ⟨hne, hi⟩

lemma judgeName_eq_claims {path name : Bytes} {kind kind' : Kind}
    (h : w.judgeName path kind implied = .claims name kind') :
    name = nameIn w.filesOnly path ∧ kind' = kind ∧ w.claims.holder? name = none := by
  unfold Writer.judgeName at h
  simp only at h
  split at h
  · next hnone =>
    obtain ⟨rfl, rfl⟩ := Verdict.claims.inj h
    exact ⟨rfl, rfl, hnone⟩
  · split at h <;> simp at h

/-- One that passes and is not let in meets a claim of its name. -/
lemma mem_names_of_judgeName {path : Bytes} {kind : Kind}
    (h : ∀ name kind', w.judgeName path kind implied ≠ .claims name kind') :
    nameIn w.filesOnly path ∈ w.claims.names := by
  unfold Writer.judgeName at h
  simp only at h
  split at h
  · exact absurd rfl (h _ _)
  · next first hfirst => exact Claims.mem_names_of_holder? hfirst

/-! ### Records -/

/-- An entry that was written: the node it was inspected as, and the data that was copied. -/
structure Record where
  entry : Entry
  node : Node
  data : Bytes
deriving Inhabited

def Entry.claim (e : Entry) : Bytes × Claimant := (e.name, ⟨e.kind, e.source⟩)

namespace Record

def member (r : Record) : Member := memberOf r.entry r.node r.data

def claim (r : Record) : Bytes × Claimant := r.entry.claim

lemma map_name_member (rs : List Record) :
    (rs.map member).map Member.name = (rs.map claim).map Prod.fst := by
  rw [List.map_map, List.map_map]
  rfl

end Record

/-- The entry that the filters make of a node. -/
structure EntryOf (patterns : Ignore.Patterns) (filesOnly : Bool) (fs : FileSystem) (base : Path)
    (node : Node) (e : Entry) : Prop where
  passes : ∃ path, Passes patterns filesOnly base e.source node path e.kind
    ∧ e.name = nameIn filesOnly path
  name : e.name ≠ baseName
  size : e.size = node.size
  target : targetOf fs e.kind e.source = .ok e.target

/-- Reading the source gives this data: of a file, as much as was announced. -/
def Delivers (fs : FileSystem) (e : Entry) (data : Bytes) : Prop :=
  if e.kind = .file then
    ∃ content, fs.read e.source = .ok content ∧ e.size ≤ content.length ∧ data = content.take e.size
  else data = []

/-- The record of a node below a base: what passed, and what was read of it. -/
structure Record.Made (patterns : Ignore.Patterns) (filesOnly : Bool) (fs : FileSystem)
    (base : Path) (r : Record) : Prop where
  entryOf : EntryOf patterns filesOnly fs base r.node r.entry
  delivers : Delivers fs r.entry r.data

/-! ### Accepting -/

/-- What accepting a node can come to. The base claims its name and has no entry. -/
inductive Accepts (fs : FileSystem) (source base : Path) (node : Node) (w w' : Writer) :
    Option Entry → Prop where
  | skipped (grows : Grows w w' [] [])
      (held : ∀ path kind, Passes w.patterns w.filesOnly base source node path kind →
        nameIn w.filesOnly path ∈ w.claims.names) : Accepts fs source base node w w' none
  | base (who : Claimant) (grows : Grows w w' [(baseName, who)] [])
      (named : ∀ path kind, Passes w.patterns w.filesOnly base source node path kind →
        nameIn w.filesOnly path = baseName) : Accepts fs source base node w w' none
  | entry (e : Entry) (grows : Grows w w' [e.claim] []) (from_ : e.source = source)
      (entryOf : EntryOf w.patterns w.filesOnly fs base node e) :
      Accepts fs source base node w w' (some e)

/-- One that passes but is not let in meets a claim of its name. -/
lemma mem_names_of_judge {v : Verdict} (hj : w.judge source base node implied = v)
    (hv : ∀ name kind, v ≠ .claims name kind) {path : Bytes} {kind : Kind}
    (hp : Passes w.patterns w.filesOnly base source node path kind) :
    nameIn w.filesOnly path ∈ w.claims.names := by
  rw [judge_of_passes hp] at hj
  exact mem_names_of_judgeName (hj ▸ hv)

lemma nameBelow_of_judge_outside (h : w.judge source base node implied = .outside) :
    Path.nameBelow base source = .outside := by
  unfold Writer.judge at h
  split at h
  · assumption
  · simp at h
  · split at h
    · simp at h
    · split at h
      · simp at h
      · split at h
        · simp at h
        · unfold Writer.judgeName at h
          simp only at h
          split at h
          · simp at h
          · split at h <;> simp at h

/-- Accepting fails for a node outside the base and for a link that cannot be read. -/
lemma accept_ends (fs : FileSystem) (source base : Path) (node : Node) (implied : Bool)
    (w : Writer) :
    Ends (accept fs source base node implied) w (fun r w' => Accepts fs source base node w w' r)
      fun e w' => (∃ cs, Grows w w' cs []) ∧ e ≠ .nothingArchived
        ∧ (Path.nameBelow base source = .outside
          ∨ ∃ kind os, Kind.ofNode? node = some kind ∧ targetOf fs kind source = .error os) := by
  unfold accept
  refine Ends.bind (Q := fun a w' => a = w ∧ w' = w) (Ends.get ⟨rfl, rfl⟩) ?_
  rintro _ _ ⟨rfl, rfl⟩
  next w =>
  rcases hj : w.judge source base node implied with _ | _ | d | ⟨name, path, first⟩ | ⟨name, kind⟩
  · exact Ends.throw ⟨⟨[], Grows.refl w⟩, by simp, .inl (nameBelow_of_judge_outside hj)⟩
  · exact Ends.pure (.skipped (Grows.refl w) fun _ _ => mem_names_of_judge hj (by simp))
  · refine Ends.bind (Q := fun _ w' => Grows w w' [] []) (Ends.modify (Grows.tell d w)) ?_
    intro _ w' hw'
    exact Ends.pure (.skipped hw' fun _ _ => mem_names_of_judge hj (by simp))
  · refine Ends.bind (Q := fun _ w' => Grows w w' [] []) (Ends.modify (Grows.note _ w)) ?_
    intro _ w' hw'
    refine Ends.bind (Q := fun _ w' => Grows w w' [] [])
      (Ends.modify (hw'.trans (Grows.tell _ w'))) ?_
    intro _ w'' hw''
    exact Ends.pure (.skipped hw'' fun _ _ => mem_names_of_judge hj (by simp))
  · -- the name is free: it is claimed, and unless it is the base's there is an entry
    obtain ⟨path, kind', hp, hname⟩ := passes_of_judge hj (.inl ⟨name, kind, rfl⟩)
    obtain ⟨rfl, rfl, hfree⟩ := judgeName_eq_claims hname
    refine Ends.bind (Q := fun _ w' => Grows w w' [(nameIn w.filesOnly path, ⟨kind, source⟩)] [])
      (Ends.modify (Grows.claim _ hfree)) ?_
    intro _ w' hw'
    split
    · next hbase =>
      rw [hbase] at hw'
      refine Ends.pure (.base _ hw' fun path' kind' hp' => ?_)
      rw [← (hp.unique hp').1]
      exact hbase
    · next hbase =>
      refine Ends.bind (Q := fun t w'' => w'' = w' ∧ targetOf fs kind source = .ok t)
        (Ends.ofOs (fun t ht => ⟨rfl, ht⟩) fun os hos =>
          ⟨⟨_, hw'⟩, by simp, .inr ⟨kind, os, hp.ofNode, hos⟩⟩) ?_
      rintro t _ ⟨rfl, ht⟩
      exact Ends.pure (.entry _ hw' rfl ⟨⟨path, hp, rfl⟩, hbase, rfl, ht⟩)

end DeployClient.Archive
