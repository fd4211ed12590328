import DeployClient.Proofs.ArchiveStream

/-!
The account of a writer: its claims against its entries.

After any operations that have not failed, the claims apart from the base's are those of the
entries written, one for each.
-/

namespace DeployClient.Archive

open Tar (Member)

/-! ### Names of entries and names claimed -/

lemma mem_names_iff_of_perm {cs : List (Bytes × Claimant)} {rs : List Record} {name : Bytes}
    (hp : (cs.filter fun c => c.1 ≠ baseName).Perm (rs.map Record.claim)) :
    name ∈ (rs.map Record.member).map Member.name ↔ name ≠ baseName ∧ name ∈ cs.map Prod.fst := by
  rw [Record.map_name_member, ← (hp.map Prod.fst).mem_iff]
  simp only [List.mem_map, List.mem_filter, decide_eq_true_eq]
  constructor
  · rintro ⟨c, ⟨hc, hne⟩, rfl⟩
    exact ⟨hne, c, hc, rfl⟩
  · rintro ⟨hne, c, hc, rfl⟩
    exact ⟨c, ⟨hc, hne⟩, rfl⟩

/-- The names of the entries are the names claimed, apart from the base's. -/
structure InStep (w : Writer) : Prop where
  unique : w.claims.names.Nodup
  names : ∀ name, name ∈ w.members.map Member.name ↔ name ≠ baseName ∧ name ∈ w.claims.names

namespace InStep

variable {P : Record → Prop} {w w' : Writer} {rs : List Record} {r : Record}

lemma of_logs (h : InStep w) (hl : Logs P w w' rs) : InStep w' := by
  obtain ⟨cs, hg, hp⟩ := hl.grows
  refine ⟨hg.unique h.unique, fun name => ?_⟩
  have hnames : w'.claims.names = w.claims.names ++ cs.map Prod.fst := by
    rw [Claims.names, hg.claims, List.map_append]
    rfl
  rw [hg.members, List.map_append, List.mem_append, h.names, mem_names_iff_of_perm hp, hnames,
    List.mem_append, ← and_or_left]

/-- What is written has a name that was free. -/
lemma notMem (h : InStep w) (hl : Logs P w w' rs) (hr : r ∈ rs) :
    r.entry.name ∉ w.members.map Member.name := by
  obtain ⟨cs, hg, hp⟩ := hl.grows
  have hunique := hg.unique h.unique
  rw [Claims.names, hg.claims, List.map_append, List.nodup_append] at hunique
  have hclaim : r.claim ∈ cs :=
    List.mem_of_mem_filter (hp.mem_iff.mpr (List.mem_map.mpr ⟨r, hr, rfl⟩))
  intro hold
  exact hunique.2.2 _ ((h.names _).mp hold).2 _ (List.mem_map.mpr ⟨_, hclaim, rfl⟩) rfl

end InStep

/-! ### Runs of operations -/

/-- What a writer that started empty has claimed and written. -/
structure Accounts (ops : List Op) (w w' : Writer) (n : Nat) (rs : List Record) : Prop where
  entries : w'.members = rs.map Record.member
  count : n = rs.length
  unique : w'.claims.names.Nodup
  claims : (w'.claims.taken.filter fun c => c.1 ≠ baseName).Perm (rs.map Record.claim)
  origin : ∀ r ∈ rs, ∃ op ∈ ops, r.WrittenBy w.patterns w.filesOnly op
  settled : ∀ op ∈ ops, op.Settled w'
  patterns : w'.patterns = w.patterns
  filesOnly : w'.filesOnly = w.filesOnly

namespace Accounts

variable {ops : List Op} {w w' : Writer} {n : Nat} {rs : List Record} {name : Bytes}

/-- The names of the entries are the names claimed, apart from the base's. -/
lemma mem_names_iff (h : Accounts ops w w' n rs) :
    name ∈ w'.members.map Member.name ↔ name ≠ baseName ∧ name ∈ w'.claims.names := by
  rw [h.entries, mem_names_iff_of_perm h.claims]
  rfl

lemma inStep (h : Accounts ops w w' n rs) : InStep w' := ⟨h.unique, fun _ => h.mem_names_iff⟩

lemma nodup_names (h : Accounts ops w w' n rs) : (w'.members.map Member.name).Nodup := by
  rw [h.entries, Record.map_name_member, ← (h.claims.map Prod.fst).nodup_iff]
  exact h.unique.sublist (List.filter_sublist.map Prod.fst)

end Accounts

lemma exists_accounts {ops : List Op} {w w' : Writer} {n : Nat} (hc : w.claims = .empty)
    (hm : w.members = []) (h : runAll ops w = .ok n w') : ∃ rs, Accounts ops w w' n rs := by
  obtain ⟨rs, hlogs, hn, hsettled⟩ := (runAll_ends ops w).of_ok h
  obtain ⟨cs, hg, hp⟩ := hlogs.grows
  have htaken : w'.claims.taken = cs := by
    rw [hg.claims, hc]
    rfl
  refine ⟨rs, ?_, hn, hg.unique (by simp [hc, Claims.names, Claims.empty]), ?_, hlogs.made,
    hsettled, hg.patterns, hg.filesOnly⟩
  · rw [hg.members, hm, List.nil_append]
  · rw [htaken]
    exact hp

/-- An archive that was given up names nothing twice either. -/
lemma nodup_names_of_backed {w w' : Writer} (hc : w.claims = .empty) (hm : w.members = [])
    (h : Backed w w') : (w'.members.map Member.name).Nodup := by
  obtain ⟨cs, ms, hg, hs⟩ := h
  have hunique : w'.claims.names.Nodup := hg.unique (by simp [hc, Claims.names, Claims.empty])
  rw [Claims.names, hg.claims, hc] at hunique
  rw [hg.members, hm, List.nil_append]
  obtain ⟨l, hl, hsub⟩ := hs
  exact hl.nodup_iff.mp (hunique.sublist hsub)

end DeployClient.Archive
