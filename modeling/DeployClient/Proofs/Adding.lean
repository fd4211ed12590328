import DeployClient.Proofs.Writing

/-!
Adding a node: one lemma for each way, with what it claims and writes and why it can fail.

The claim of a file comes first, then those of the directories above it, and their entries are
written in the opposite order.
-/

namespace DeployClient.Archive

open Tar (Member)

variable {w : Writer} {fs : FileSystem} {source base : Path} {node : Node}

/-! ### Adding nodes -/

/-- What a node is archived by can be read: the target of a link, and of a file as many bytes
as it was inspected with. -/
structure Readable (fs : FileSystem) (source : Path) (node : Node) : Prop where
  target : ∀ kind, Kind.ofNode? node = some kind → ∃ t, targetOf fs kind source = .ok t
  content : Kind.ofNode? node = some .file →
    ∃ content, fs.read source = .ok content ∧ node.size ≤ content.length

lemma readable_of_isDirectory (h : node.isDirectory = true) : Readable fs source node := by
  cases node with
  | directory stamp entries =>
    constructor
    · intro kind hk
      obtain rfl := Option.some.inj hk
      exact ⟨[], rfl⟩
    · intro hk
      simp [Kind.ofNode?] at hk
  | _ => simp [Node.isDirectory] at h

lemma exists_delivers {patterns : Ignore.Patterns} {filesOnly : Bool} {e : Entry}
    (hr : Readable fs e.source node) (he : EntryOf patterns filesOnly fs base node e) :
    ∃ data, Delivers fs e data := by
  obtain ⟨path, hp, -⟩ := he.passes
  unfold Delivers
  by_cases hk : e.kind = .file
  · obtain ⟨content, hc, hle⟩ := hr.content (hk ▸ hp.ofNode)
    rw [← he.size] at hle
    exact ⟨_, by rw [if_pos hk]; exact ⟨content, hc, hle, rfl⟩⟩
  · exact ⟨[], by rw [if_neg hk]⟩

/-- A node that passes the filters has its name among the claims. -/
def Claimed (w' : Writer) (base source : Path) (node : Node) : Prop :=
  ∀ path kind, Passes w'.patterns w'.filesOnly base source node path kind →
    nameIn w'.filesOnly path ∈ w'.claims.names

lemma Claimed.of_grows {w' w'' : Writer} {cs : List (Bytes × Claimant)} {ms : List Member}
    (h : Claimed w' base source node) (hg : Grows w' w'' cs ms) :
    Claimed w'' base source node := by
  intro path kind hp
  rw [hg.patterns, hg.filesOnly] at hp
  rw [hg.filesOnly]
  exact hg.names_subset (h path kind hp)

lemma Accepts.claimed {w' : Writer} {r : Option Entry} (h : Accepts fs source base node w w' r) :
    Claimed w' base source node := by
  intro path kind hp
  cases h with
  | skipped grows held =>
    rw [grows.patterns, grows.filesOnly] at hp
    rw [grows.filesOnly]
    exact grows.names_subset (held path kind hp)
  | base who grows named =>
    rw [grows.patterns, grows.filesOnly] at hp
    rw [grows.filesOnly, named path kind hp, Claims.names, grows.claims]
    simp
  | entry e grows hsource entryOf =>
    rw [grows.patterns, grows.filesOnly] at hp
    obtain ⟨path', hp', hname⟩ := entryOf.passes
    rw [hsource] at hp'
    rw [grows.filesOnly, (hp.unique hp').1, ← hname, Claims.names, grows.claims]
    simp [Entry.claim]

/-- The record of a directory between a source and the base. -/
structure Implied (fs : FileSystem) (base source : Path) (r : Record) : Prop where
  parent : r.entry.source ∈ parentsBelow source base
  lstat : fs.lstat r.entry.source = .ok r.node
  isDirectory : r.node.isDirectory = true

/-- What adding a node comes to: the records of directories above it, and then its own. -/
structure Added (fs : FileSystem) (base source : Path) (node : Node) (w : Writer) (n : Nat)
    (w' : Writer) (above own : List Record) : Prop where
  logs : Logs (Record.Made w.patterns w.filesOnly fs base) w w' (above ++ own)
  count : n = (above ++ own).length
  implied : ∀ r ∈ above, Implied fs base source r
  given : ∀ r ∈ own, r.entry.source = source ∧ r.node = node
  single : own.length ≤ 1
  led : above ≠ [] → own ≠ []
  claimed : Claimed w' base source node

/-- Why a node cannot be added: it lies outside the base, the destination fails, or what it is
archived by cannot be read. -/
def Faulty (fs : FileSystem) (base source : Path) (node : Node) (w : Writer) : Prop :=
  Path.nameBelow base source = .outside ∨ w.sinkFault ≠ none ∨ ¬ Readable fs source node

/-- What a failure leaves behind, and its reason. -/
def Fails (reason : Prop) (w : Writer) (e : Error) (w' : Writer) : Prop :=
  e ≠ .nothingArchived ∧ Backed w w' ∧ reason

lemma not_readable_of_target {kind : Kind} {os : OsError} (hk : Kind.ofNode? node = some kind)
    (h : targetOf fs kind source = .error os) : ¬ Readable fs source node := by
  intro hr
  obtain ⟨t, ht⟩ := hr.target kind hk
  simp [h] at ht

/-- The record of an entry that has been claimed and is then written. -/
lemma logs_of_claim {P : Record → Prop} {w' w'' w''' : Writer} {rs : List Record} {r : Record}
    (hname : r.entry.name ≠ baseName) (hclaim : Grows w w' [r.entry.claim] [])
    (habove : Logs P w' w'' rs) (hwrite : Grows w'' w''' [] [r.member]) (hr : P r) :
    Logs P w w''' (rs ++ [r]) := by
  obtain ⟨cs, hg, hp⟩ := habove.grows
  refine ⟨⟨r.claim :: cs, ?_, ?_⟩, ?_⟩
  · have := hclaim.trans (hg.trans hwrite)
    simpa [Record.claim] using this
  · have hkeep : (r.claim :: cs).filter (fun c => c.1 ≠ baseName)
        = r.claim :: cs.filter fun c => c.1 ≠ baseName :=
      List.filter_cons_of_pos (decide_eq_true hname)
    rw [hkeep, List.map_append]
    exact (hp.cons r.claim).trans (List.perm_append_singleton r.claim _).symm
  · intro x hx
    rcases List.mem_append.mp hx with hx | hx
    · exact habove.made x hx
    · rw [List.mem_singleton.mp hx]
      exact hr

lemma backed_of_claim {w' w'' w''' : Writer} {e : Entry} {data : Bytes}
    (hclaim : Grows w w' [e.claim] []) (habove : Backed w' w'')
    (hwrite : Grows w'' w''' [] [memberOf e node data]) : Backed w w''' := by
  obtain ⟨cs, ms, hg, hs⟩ := habove
  refine ⟨e.claim :: cs, ms ++ [memberOf e node data], ?_, ?_⟩
  · simpa using hclaim.trans (hg.trans hwrite)
  · rw [List.map_append, List.map_cons]
    exact (List.perm_append_singleton _ _).subperm.trans ((List.subperm_cons e.name).mpr hs)

theorem addPath_ends (fs : FileSystem) (source base : Path) (node : Node) (implied : Bool)
    (w : Writer) :
    Ends (addPath fs source base node implied) w
      (fun n w' => ∃ own, Added fs base source node w n w' [] own)
      (Fails (Faulty fs base source node w) w) := by
  unfold addPath
  refine Ends.bind ((accept_ends fs source base node implied w).mono (fun _ _ h => h) ?_) ?_
  · rintro e w' ⟨⟨cs, hg⟩, hne, hout | ⟨kind, os, hk, hos⟩⟩
    · exact ⟨hne, .of_grows hg, .inl hout⟩
    · exact ⟨hne, .of_grows hg, .inr (.inr (not_readable_of_target hk hos))⟩
  · intro r w' hr
    have hclaimed := hr.claimed
    cases hr with
    | skipped grows held =>
      exact Ends.pure ⟨[], .of_grows grows rfl, rfl, by simp, by simp, by simp, id, hclaimed⟩
    | base who grows named =>
      exact Ends.pure ⟨[], .of_grows grows (by simp), rfl, by simp, by simp, by simp, id, hclaimed⟩
    | entry e grows hsource entryOf =>
      refine Ends.bind ((write_ends fs e node w').mono (fun _ _ h => h) ?_) ?_
      · rintro err w'' ⟨hne, hwhy, hleft⟩
        refine ⟨hne, ?_, ?_⟩
        · rcases hleft with hg | ⟨data, hg⟩
          · exact (Backed.of_grows grows).trans (.of_grows hg)
          · exact backed_of_claim grows (.of_grows (Grows.refl w')) hg
        · rcases hwhy with hsink | hnone
          · exact .inr (.inl (grows.sinkFault ▸ hsink))
          · refine .inr (.inr fun hr => ?_)
            obtain ⟨data, hd⟩ := exists_delivers (hsource ▸ hr) entryOf
            exact hnone data hd
      · rintro _ w'' ⟨-, data, hd, hg⟩
        have hmade : Record.Made w.patterns w.filesOnly fs base ⟨e, node, data⟩ := ⟨entryOf, hd⟩
        refine Ends.pure ⟨[⟨e, node, data⟩], ?_, rfl, by simp, ?_, by simp, by simp,
          hclaimed.of_grows hg⟩
        · exact logs_of_claim entryOf.name grows (.of_grows (Grows.refl w') rfl) hg hmade
        · intro r hr
          rw [List.mem_singleton.mp hr]
          exact ⟨hsource, rfl⟩

/-- What adding parents comes to: records of directories. -/
def ParentsAdded (fs : FileSystem) (base : Path) (parents : List Path) (w : Writer) (n : Nat)
    (w' : Writer) : Prop :=
  ∃ rs, Logs (Record.Made w.patterns w.filesOnly fs base) w w' rs ∧ n = rs.length
    ∧ ∀ r ∈ rs, r.entry.source ∈ parents ∧ fs.lstat r.entry.source = .ok r.node
      ∧ r.node.isDirectory = true

/-- A parent that stops the file below it: it cannot be inspected, or lies outside the base. -/
def BadParent (fs : FileSystem) (base : Path) (parents : List Path) : Prop :=
  ∃ p ∈ parents, (∀ n, fs.lstat p ≠ .ok n) ∨ Path.nameBelow base p = .outside

lemma addParents_ends (fs : FileSystem) (base : Path) (parents : List Path) (w : Writer) :
    Ends (addParents fs base parents) w (ParentsAdded fs base parents w)
      (Fails (w.sinkFault ≠ none ∨ BadParent fs base parents) w) := by
  induction parents generalizing w with
  | nil => exact Ends.pure ⟨[], .of_grows (Grows.refl w) rfl, rfl, by simp⟩
  | cons p parents ih =>
    unfold addParents
    refine Ends.bind (Q := fun node w' => w' = w ∧ fs.lstat p = .ok node)
      (Ends.ofOs (fun node h => ⟨rfl, h⟩) fun os hos => ?_) ?_
    · exact ⟨by simp, .of_grows (Grows.refl w), .inr ⟨p, by simp, .inl (by simp [hos])⟩⟩
    · rintro node _ ⟨rfl, hnode⟩
      next w =>
      -- what follows the first parent, whether that one is added or passed over
      have hrest : ∀ n w', (∃ rs, Logs (Record.Made w.patterns w.filesOnly fs base) w w' rs
            ∧ n = rs.length ∧ ∀ r ∈ rs, r.entry.source = p ∧ r.node = node ∧ node.isDirectory) →
          Ends (do let others ← addParents fs base parents; return n + others) w'
            (ParentsAdded fs base (p :: parents) w)
            (Fails (w.sinkFault ≠ none ∨ BadParent fs base (p :: parents)) w) := by
        rintro n w' ⟨rs, hlogs, rfl, hrs⟩
        obtain ⟨cs, hg, -⟩ := hlogs.grows
        refine Ends.bind ((ih w').mono (fun _ _ h => h) ?_) ?_
        · rintro e w'' ⟨hne, hb, hwhy⟩
          refine ⟨hne, (Backed.of_logs hlogs).trans hb, ?_⟩
          rcases hwhy with hsink | ⟨q, hq, hwhy⟩
          · exact .inl (hg.sinkFault ▸ hsink)
          · exact .inr ⟨q, List.mem_cons_of_mem _ hq, hwhy⟩
        · rintro m w'' ⟨ss, hlogs', rfl, hss⟩
          rw [hg.patterns, hg.filesOnly] at hlogs'
          refine Ends.pure ⟨rs ++ ss, hlogs.trans hlogs', by simp, ?_⟩
          intro r hr
          rcases List.mem_append.mp hr with hr | hr
          · obtain ⟨hsource, rfl, hdir⟩ := hrs r hr
            exact ⟨by simp [hsource], hsource ▸ hnode, hdir⟩
          · obtain ⟨hmem, hrest⟩ := hss r hr
            exact ⟨List.mem_cons_of_mem _ hmem, hrest⟩
      split
      · next hdir =>
        refine Ends.bind ((addPath_ends fs p base node true w).mono ?_ ?_) hrest
        · rintro n w' ⟨own, h⟩
          exact ⟨own, h.logs, h.count, fun r hr => ⟨(h.given r hr).1, (h.given r hr).2, hdir⟩⟩
        · rintro e w' ⟨hne, hb, hout | hsink | hread⟩
          · exact ⟨hne, hb, .inr ⟨p, by simp, .inr hout⟩⟩
          · exact ⟨hne, hb, .inl hsink⟩
          · exact absurd (readable_of_isDirectory hdir) hread
      · exact Ends.bind (Ends.pure ⟨[], .of_grows (Grows.refl w) rfl, rfl, by simp⟩) hrest

/-- The parents one after the other: what holds before each, with those that are left, holds in the
end with none left. -/
lemma addParents_rule {I : List Path → Writer → Prop} {E : Error → Writer → Prop}
    (hfail : ∀ p rest w, I (p :: rest) w → ∀ os, fs.lstat p = .error os → E (.io (.os os)) w)
    (hadd : ∀ p rest w node, I (p :: rest) w → fs.lstat p = .ok node → node.isDirectory = true →
      Ends (addPath fs p base node true) w (fun _ w' => I rest w') E)
    (hpass : ∀ p rest w node, I (p :: rest) w → fs.lstat p = .ok node → node.isDirectory = false →
      I rest w) {parents : List Path} {w : Writer} (h : I parents w) :
    Ends (addParents fs base parents) w (fun _ w' => I [] w') E := by
  induction parents generalizing w with
  | nil => exact Ends.pure h
  | cons p parents ih =>
    unfold addParents
    refine Ends.bind (Q := fun node w' => w' = w ∧ fs.lstat p = .ok node)
      (Ends.ofOs (fun node h => ⟨rfl, h⟩) (hfail p parents w h)) ?_
    rintro node _ ⟨rfl, hnode⟩
    next w =>
    have hrest : ∀ (added : Nat) w', I parents w' →
        Ends (do let others ← addParents fs base parents; return added + others) w'
          (fun _ w' => I [] w') E :=
      fun added w' hw' => Ends.bind (ih hw') fun _ _ hw'' => Ends.pure hw''
    split
    · next hdir => exact Ends.bind (hadd p parents w node h hnode hdir) hrest
    · next hdir =>
      exact Ends.bind (Ends.pure (hpass p parents w node h hnode (by simpa using hdir))) hrest

theorem addFile_ends (fs : FileSystem) (source base : Path) (node : Node) (w : Writer) :
    Ends (addFile fs source base node) w
      (fun n w' => ∃ above own, Added fs base source node w n w' above own
        ∧ (w.filesOnly = true → above = []))
      (Fails (Faulty fs base source node w
        ∨ w.filesOnly = false ∧ BadParent fs base (parentsBelow source base)) w) := by
  unfold addFile
  refine Ends.bind ((accept_ends fs source base node false w).mono (fun _ _ h => h) ?_) ?_
  · rintro e w' ⟨⟨cs, hg⟩, hne, hout | ⟨kind, os, hk, hos⟩⟩
    · exact ⟨hne, .of_grows hg, .inl (.inl hout)⟩
    · exact ⟨hne, .of_grows hg, .inl (.inr (.inr (not_readable_of_target hk hos)))⟩
  · intro r w' hr
    have hclaimed := hr.claimed
    cases hr with
    | skipped grows held =>
      exact Ends.pure ⟨[], [], ⟨.of_grows grows rfl, rfl, by simp, by simp, by simp, id, hclaimed⟩,
        fun _ => rfl⟩
    | base who grows named =>
      exact Ends.pure ⟨[], [], ⟨.of_grows grows (by simp), rfl, by simp, by simp, by simp, id,
        hclaimed⟩, fun _ => rfl⟩
    | entry e grows hsource entryOf =>
      refine Ends.bind (Q := fun a w'' => a = w' ∧ w'' = w') (Ends.get ⟨rfl, rfl⟩) ?_
      rintro _ _ ⟨rfl, rfl⟩
      next w' =>
      refine Ends.bind ((addParents_ends fs base _ w').mono (fun _ _ h => h) ?_) ?_
      · rintro err w'' ⟨hne, hb, hwhy⟩
        refine ⟨hne, (Backed.of_grows grows).trans hb, ?_⟩
        rcases hwhy with hsink | ⟨p, hp, hwhy⟩
        · exact .inl (.inr (.inl (grows.sinkFault ▸ hsink)))
        · rw [grows.filesOnly] at hp
          cases hf : w.filesOnly with
          | true => simp [hf] at hp
          | false => exact .inr ⟨rfl, p, by simpa [hf] using hp, hwhy⟩
      · rintro n w'' ⟨above, hlogs, rfl, habove⟩
        rw [grows.patterns, grows.filesOnly] at hlogs
        obtain ⟨cs, hg, -⟩ := hlogs.grows
        refine Ends.bind ((write_ends fs e node w'').mono (fun _ _ h => h) ?_) ?_
        · rintro err w''' ⟨hne, hwhy, hleft⟩
          refine ⟨hne, ?_, ?_⟩
          · rcases hleft with hg' | ⟨data, hg'⟩
            · exact (Backed.of_grows grows).trans ((Backed.of_logs hlogs).trans (.of_grows hg'))
            · exact backed_of_claim grows (.of_logs hlogs) hg'
          · rcases hwhy with hsink | hnone
            · exact .inl (.inr (.inl (grows.sinkFault ▸ hg.sinkFault ▸ hsink)))
            · refine .inl (.inr (.inr fun hr => ?_))
              obtain ⟨data, hd⟩ := exists_delivers (hsource ▸ hr) entryOf
              exact hnone data hd
        · rintro _ w''' ⟨-, data, hd, hw⟩
          have hmade : Record.Made w.patterns w.filesOnly fs base ⟨e, node, data⟩ := ⟨entryOf, hd⟩
          refine Ends.pure ⟨above, [⟨e, node, data⟩], ⟨?_, by simp, ?_, ?_, by simp, by simp,
            (hclaimed.of_grows hg).of_grows hw⟩, ?_⟩
          · exact logs_of_claim entryOf.name grows hlogs hw hmade
          · intro r hr
            obtain ⟨hmem, hl, hdir⟩ := habove r hr
            rw [grows.filesOnly] at hmem
            cases hf : w.filesOnly with
            | true => simp [hf] at hmem
            | false => exact ⟨by simpa [hf] using hmem, hl, hdir⟩
          · intro r hr
            rw [List.mem_singleton.mp hr]
            exact ⟨hsource, rfl⟩
          · intro hf
            refine List.eq_nil_iff_forall_not_mem.mpr fun r hr => ?_
            have hmem := (habove r hr).1
            simp [grows.filesOnly, hf] at hmem

end DeployClient.Archive
