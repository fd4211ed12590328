import DeployClient.Proofs.Adding

/-!
Sequences of operations on one writer, and an archive run as such a sequence.

Each operation brings the file system it sees, so a sequence also speaks of a file system that
changes between the operations. On one that does not change, archiving a list of inputs is
the sequence of operations that the inputs call for.
-/

namespace DeployClient.Archive

open Tar (Member)

/-- An operation on a writer: a node is added, as one of a walk or as a file given on its own;
something is told; or the sequence ends with an error from elsewhere. -/
inductive Op where
  | path (fs : FileSystem) (source base : Path) (node : Node)
  | file (fs : FileSystem) (source base : Path) (node : Node)
  | report (d : Diagnostic)
  | event (e : Event)
  | fail (e : Error)
deriving Inhabited

namespace Op

/-- Carries out the operation; returns the number of entries written. -/
def run : Op → Writing Nat
  | .path fs source base node => addPath fs source base node false
  | .file fs source base node => addFile fs source base node
  | .report d => do
    Archive.report d
    return 0
  | .event e => do
    Archive.event e
    return 0
  | .fail e => throw e

end Op

def runAll : List Op → Writing Nat
  | [] => pure 0
  | op :: ops => do
    let added ← op.run
    let others ← runAll ops
    return added + others

@[simp] lemma runAll_nil : runAll [] = pure 0 := rfl

lemma runAll_append (ops rest : List Op) :
    runAll (ops ++ rest) = (do
      let added ← runAll ops
      let others ← runAll rest
      return added + others) := by
  induction ops with
  | nil => simp only [List.nil_append, runAll_nil, pure_bind, Nat.zero_add, bind_pure]
  | cons op ops ih =>
    simp only [List.cons_append, runAll, ih, bind_assoc, pure_bind, Nat.add_assoc]

lemma runAll_singleton (op : Op) : runAll [op] = op.run := by
  simp only [runAll, pure_bind, Nat.add_zero, bind_pure]

lemma runAll_cons_ok {op : Op} {ops : List Op} {w w' w'' : Writer} {a b : Nat}
    (h : op.run w = .ok a w') (hrest : runAll ops w' = .ok b w'') :
    runAll (op :: ops) w = .ok (a + b) w'' := by
  rw [runAll, bind_of_ok h, bind_of_ok hrest]
  rfl

/-- A run of two lists, one after the other. -/
lemma runAll_append_eq_ok_iff {ops rest : List Op} {w w' : Writer} {n : Nat} :
    runAll (ops ++ rest) w = .ok n w'
      ↔ ∃ a v b, runAll ops w = .ok a v ∧ runAll rest v = .ok b w' ∧ n = a + b := by
  rw [runAll_append]
  rcases hops : runAll ops w with ⟨a, v⟩ | ⟨e, v⟩
  · rw [bind_of_ok hops]
    rcases hrest : runAll rest v with ⟨b, v'⟩ | ⟨e, v'⟩
    · rw [bind_of_ok hrest]
      constructor
      · intro h
        obtain ⟨rfl, rfl⟩ := EStateM.Result.ok.inj h
        exact ⟨a, v, b, rfl, hrest, rfl⟩
      · rintro ⟨_, _, _, h, h', rfl⟩
        obtain ⟨rfl, rfl⟩ := EStateM.Result.ok.inj h
        obtain ⟨rfl, rfl⟩ := EStateM.Result.ok.inj (hrest.symm.trans h')
        rfl
    · rw [bind_of_error hrest]
      constructor
      · intro h
        simp at h
      · rintro ⟨_, _, _, h, h', -⟩
        obtain ⟨rfl, rfl⟩ := EStateM.Result.ok.inj h
        simp [hrest] at h'
  · rw [bind_of_error hops]
    simp

/-! ### What operations write -/

/-- The operation has written this record: of its own node, or of a directory above a file that
has an entry itself. -/
def Record.WrittenBy (patterns : Ignore.Patterns) (filesOnly : Bool) (r : Record) : Op → Prop
  | .path fs source base node =>
    r.Made patterns filesOnly fs base ∧ r.entry.source = source ∧ r.node = node
  | .file fs source base node =>
    r.Made patterns filesOnly fs base
      ∧ (r.entry.source = source ∧ r.node = node ∨ Implied fs base source r
        ∧ ∃ e, e.source = source ∧ EntryOf patterns filesOnly fs base node e)
  | _ => False

/-- The operation has not failed, and its node, if it passes the filters, has its name among
the claims. -/
def Op.Settled (w : Writer) : Op → Prop
  | .path _ source base node => Claimed w base source node
  | .file _ source base node => Claimed w base source node
  | .fail _ => False
  | _ => True

lemma Op.Settled.of_grows {w w' : Writer} {cs : List (Bytes × Claimant)} {ms : List Member}
    {op : Op} (h : op.Settled w) (hg : Grows w w' cs ms) : op.Settled w' := by
  cases op with
  | path fs source base node => exact Claimed.of_grows h hg
  | file fs source base node => exact Claimed.of_grows h hg
  | fail e => exact h
  | _ => trivial

lemma Op.run_ends (op : Op) (w : Writer) :
    Ends op.run w
      (fun n w' => ∃ rs, Logs (fun r => r.WrittenBy w.patterns w.filesOnly op) w w' rs
        ∧ n = rs.length ∧ op.Settled w')
      (fun e w' => (e = .nothingArchived → op = .fail .nothingArchived) ∧ Backed w w') := by
  cases op with
  | path fs source base node =>
    refine (addPath_ends fs source base node false w).mono ?_ ?_
    · rintro n w' ⟨own, h⟩
      refine ⟨own, ⟨h.logs.grows, fun r hr => ?_⟩, h.count, h.claimed⟩
      exact ⟨h.logs.made r hr, h.given r hr⟩
    · rintro e w' ⟨hne, hb, -⟩
      exact ⟨fun he => absurd he hne, hb⟩
  | file fs source base node =>
    refine (addFile_ends fs source base node w).mono ?_ ?_
    · rintro n w' ⟨above, own, h, -⟩
      refine ⟨above ++ own, ⟨h.logs.grows, fun r hr => ⟨h.logs.made r hr, ?_⟩⟩, h.count, h.claimed⟩
      rcases List.mem_append.mp hr with hr | hr
      · obtain ⟨s, hs⟩ := List.exists_mem_of_ne_nil own (h.led (List.ne_nil_of_mem hr))
        obtain ⟨hsource, hnode⟩ := h.given s hs
        refine .inr ⟨h.implied r hr, s.entry, hsource, ?_⟩
        exact hnode ▸ (h.logs.made s (List.mem_append_right _ hs)).entryOf
      · exact .inl (h.given r hr)
    · rintro e w' ⟨hne, hb, -⟩
      exact ⟨fun he => absurd he hne, hb⟩
  | report d =>
    refine Ends.bind (Q := fun _ w' => Grows w w' [] []) (Ends.modify (Grows.tell d w)) ?_
    exact fun _ w' hw' => Ends.pure ⟨[], .of_grows hw' rfl, rfl, trivial⟩
  | event e =>
    refine Ends.bind (Q := fun _ w' => Grows w w' [] []) (Ends.modify (Grows.note _ w)) ?_
    exact fun _ w' hw' => Ends.pure ⟨[], .of_grows hw' rfl, rfl, trivial⟩
  | fail e => exact Ends.throw ⟨fun he => by rw [he], .of_grows (Grows.refl w)⟩

/-- **A run keeps claims and entries in step**, and leaves every entry backed by a claim even
when it fails. -/
theorem runAll_ends (ops : List Op) (w : Writer) :
    Ends (runAll ops) w
      (fun n w' => ∃ rs,
        Logs (fun r => ∃ op ∈ ops, r.WrittenBy w.patterns w.filesOnly op) w w' rs
          ∧ n = rs.length ∧ ∀ op ∈ ops, op.Settled w')
      (fun e w' => (e = .nothingArchived → .fail .nothingArchived ∈ ops) ∧ Backed w w') := by
  induction ops generalizing w with
  | nil => exact Ends.pure ⟨[], .of_grows (Grows.refl w) rfl, rfl, by simp⟩
  | cons op ops ih =>
    refine Ends.bind ((op.run_ends w).mono (fun _ _ h => h) ?_) ?_
    · rintro e w' ⟨he, hb⟩
      exact ⟨fun hn => he hn ▸ List.mem_cons_self, hb⟩
    · rintro n w' ⟨rs, hlogs, rfl, hsettled⟩
      obtain ⟨cs, hg, -⟩ := hlogs.grows
      refine Ends.bind ((ih w').mono (fun _ _ h => h) ?_) ?_
      · rintro e w'' ⟨he, hb⟩
        exact ⟨fun hn => List.mem_cons_of_mem _ (he hn), (Backed.of_logs hlogs).trans hb⟩
      · rintro m w'' ⟨ss, hlogs', rfl, hsettled'⟩
        rw [hg.patterns, hg.filesOnly] at hlogs'
        obtain ⟨ds, hg', -⟩ := hlogs'.grows
        refine Ends.pure ⟨rs ++ ss, ?_, by simp, ?_⟩
        · refine (hlogs.mono fun r _ h => ⟨op, List.mem_cons_self, h⟩).trans
            (hlogs'.mono fun r _ h => ?_)
          obtain ⟨o, ho, h⟩ := h
          exact ⟨o, List.mem_cons_of_mem _ ho, h⟩
        · intro o ho
          rcases List.mem_cons.mp ho with rfl | ho
          · exact hsettled.of_grows hg'
          · exact hsettled' o ho

/-! ### The operations that inputs call for -/

/-- A path that a walk comes to is looked at and added. -/
def visitOp (fs : FileSystem) (base p : Path) : Op :=
  match fs.lstat p with
  | .error e => .fail (.walk ⟨p, e⟩)
  | .ok node => .path fs p base node

/-- A directory that may not be listed is added, and then the walk ends. -/
def visitOps (fs : FileSystem) (base : Path) (v : Visit) : List Op :=
  visitOp fs base v.1
    :: if fs.lists v.2 then [] else [.fail (.walk ⟨v.1, .permissionDenied⟩)]

def walkOps (fs : FileSystem) (root base : Path) : List Op :=
  match fs.visits root with
  | .error e => [.fail (.walk e)]
  | .ok vs => vs.flatMap (visitOps fs base)

/-- A directory is walked through, from the base that the number of inputs asks for. -/
def inputOps (fs : FileSystem) (workingDir : Path) (single : Bool) (p : Path) : List Op :=
  match Path.resolveWithin workingDir p with
  | none => [.report (.outsideDirectory p)]
  | some absolute =>
    match fs.lstat absolute with
    | .error e => [.fail (.io (.os e))]
    | .ok node =>
      if node.isDirectory then
        let base := if single then absolute else workingDir
        .event (.archivingDirectory absolute base) :: walkOps fs absolute base
      else [.file fs absolute workingDir node]

lemma mem_visitOps {fs : FileSystem} {base : Path} {v : Visit} {op : Op} :
    op ∈ visitOps fs base v ↔ op = visitOp fs base v.1
      ∨ op = .fail (.walk ⟨v.1, .permissionDenied⟩) ∧ fs.lists v.2 = false := by
  rw [visitOps, List.mem_cons]
  cases fs.lists v.2 <;> simp

variable (fs : FileSystem) (workingDir base : Path) (single : Bool)

lemma visitAll_eq_runAll (vs : List Visit) :
    fs.visitAll .walk (fun source node => addPath fs source base node false) vs
      = runAll (vs.flatMap (visitOps fs base)) := by
  induction vs with
  | nil => rfl
  | cons v vs ih =>
    obtain ⟨p, listed⟩ := v
    rw [FileSystem.visitAll, List.flatMap_cons, runAll_append, ← ih, visitOps, visitOp, runAll]
    cases fs.lstat p with
    | error e => rfl
    | ok node =>
      have hadd : (Op.path fs p base node).run = addPath fs p base node false := rfl
      simp only [hadd]
      split
      · simp only [runAll_nil, pure_bind, Nat.add_zero, bind_pure]
      · have hfail : ∀ e, runAll [Op.fail e] = throw e := fun e => by
          rw [runAll_singleton]
          rfl
        funext w
        rcases hw : addPath fs p base node false w with ⟨k, w'⟩ | ⟨e, w'⟩
        · simp only [hfail, bind_assoc, bind_of_ok hw]
          rfl
        · simp only [bind_assoc, bind_of_error hw]

lemma walk_eq_runAll (root : Path) :
    fs.walk root .walk (fun source node => addPath fs source base node false)
      = runAll (walkOps fs root base) := by
  rw [FileSystem.walk, walkOps]
  cases fs.visits root with
  | error e => rfl
  | ok vs => exact visitAll_eq_runAll fs base vs

lemma archiveInput_eq_runAll (p : Path) :
    archiveInput fs workingDir single p = runAll (inputOps fs workingDir single p) := by
  rw [archiveInput, inputOps]
  cases Path.resolveWithin workingDir p with
  | none => rfl
  | some absolute =>
    simp only
    cases fs.lstat absolute with
    | error e => rfl
    | ok node =>
      have hofOs : ofOs (.ok node : Except OsError Node) = pure node := rfl
      simp only [walk_eq_runAll, hofOs, pure_bind]
      split
      · next hdir =>
        have hevent : ∀ told, (Op.event told).run = (do event told; return 0) := fun _ => rfl
        simp only [runAll, hevent, bind_assoc, pure_bind, Nat.zero_add, bind_pure]
      · rw [runAll_singleton]
        rfl

lemma archiveInputs_eq_runAll (ps : List Path) :
    archiveInputs fs workingDir single ps
      = runAll (ps.flatMap (inputOps fs workingDir single)) := by
  induction ps with
  | nil => rfl
  | cons p ps ih =>
    rw [archiveInputs, List.flatMap_cons, runAll_append, archiveInput_eq_runAll, ih]

end DeployClient.Archive
