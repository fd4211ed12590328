import DeployClient.Proofs.Accepting

/-!
Writing entries, and what ties them to the claims.

Claiming and writing are separate steps. What ties them together is `Logs`: apart from the
name of the base, the claims that some steps have added are those of the entries they have
written, in whatever order.
-/

namespace DeployClient.Archive

open Tar (Member)

variable {w : Writer} {fs : FileSystem} {source base : Path} {node : Node}

/-! ### Writing -/

lemma put_ends (m : Member) (w : Writer) :
    Ends (put m) w (fun _ w' => w' = w.append m ∧ w.sinkFault = none)
      fun e w' => w' = w ∧ e ≠ .nothingArchived ∧ w.sinkFault ≠ none := by
  unfold put
  refine Ends.bind (Q := fun a w' => a = w ∧ w' = w) (Ends.get ⟨rfl, rfl⟩) ?_
  rintro _ _ ⟨rfl, rfl⟩
  next w =>
  split
  · next e he => exact Ends.throw ⟨rfl, by simp, by simp [he]⟩
  · next hnone => exact Ends.modify ⟨rfl, hnone⟩

/-- What writing comes to: one more entry, with the data that its source delivers. -/
def Wrote (fs : FileSystem) (e : Entry) (node : Node) (w w' : Writer) : Prop :=
  w.sinkFault = none ∧ ∃ data, Delivers fs e data ∧ Grows w w' [] [memberOf e node data]

/-- How writing fails: the destination does, or a file does not deliver what was announced.
Then the entry may be there, cut short. -/
def Spoilt (fs : FileSystem) (e : Entry) (node : Node) (w : Writer) (err : Error) (w' : Writer) :
    Prop :=
  err ≠ .nothingArchived ∧ (w.sinkFault ≠ none ∨ ∀ data, ¬ Delivers fs e data)
    ∧ (Grows w w' [] [] ∨ ∃ data, Grows w w' [] [memberOf e node data])

lemma put_delivered {e : Entry} {data : Bytes} (hd : Delivers fs e data) (w : Writer) :
    Ends (put (memberOf e node data)) w (fun _ w' => Wrote fs e node w w')
      (Spoilt fs e node w) := by
  refine (put_ends _ w).mono ?_ ?_
  · rintro _ _ ⟨rfl, hsink⟩
    exact ⟨hsink, data, hd, Grows.append _ w⟩
  · rintro err _ ⟨rfl, hne, hsink⟩
    exact ⟨hne, .inl hsink, .inl (Grows.refl _)⟩

/-- What is left of an entry that fails after its header. -/
lemma put_spoilt {e : Entry} (hd : ∀ data, ¬ Delivers fs e data) (data : Bytes) {err : Error}
    (hne : err ≠ .nothingArchived) (w : Writer) :
    Ends (do put (memberOf e node data); (throw err : Writing Unit)) w
      (fun _ w' => Wrote fs e node w w') (Spoilt fs e node w) := by
  refine Ends.bind (Q := fun _ w' => w' = w.append (memberOf e node data)) ?_ ?_
  · refine (put_ends _ w).mono (fun _ _ h => h.1) ?_
    rintro err _ ⟨rfl, hne, hsink⟩
    exact ⟨hne, .inl hsink, .inl (Grows.refl _)⟩
  · rintro _ _ rfl
    exact Ends.throw ⟨hne, .inr hd, .inr ⟨data, Grows.append _ w⟩⟩

lemma read_eq_of_openNode {p : Path} {opened : Node} (h : fs.openNode p = .ok opened) :
    fs.read p = opened.contents := by
  rw [FileSystem.read, h]

lemma delivers_of_read {e : Entry} (hk : e.kind = .file) {content : Bytes}
    (h : fs.read e.source = .ok content) (hle : e.size ≤ content.length) :
    Delivers fs e (content.take e.size) := by
  rw [Delivers, if_pos hk]
  exact ⟨content, h, hle, rfl⟩

lemma not_delivers_of_read {e : Entry} (hk : e.kind = .file) {os : OsError}
    (h : fs.read e.source = .error os) (data : Bytes) : ¬ Delivers fs e data := by
  rw [Delivers, if_pos hk, h]
  rintro ⟨content, hc, -⟩
  simp at hc

lemma writeFile_ends {e : Entry} (hk : e.kind = .file) (w : Writer) :
    Ends (writeFile fs e node) w (fun _ w' => Wrote fs e node w w') (Spoilt fs e node w) := by
  unfold writeFile
  refine Ends.bind (Q := fun opened w' => w' = w ∧ fs.openNode e.source = .ok opened)
    (Ends.ofOs (fun opened h => ⟨rfl, h⟩) fun os hos => ?_) ?_
  · have hread : fs.read e.source = .error os := by rw [FileSystem.read, hos]
    exact ⟨by simp, .inr (not_delivers_of_read hk hread), .inl (Grows.refl w)⟩
  · rintro opened _ ⟨rfl, hopen⟩
    next w =>
    have hread := read_eq_of_openNode hopen
    split
    · next os hos =>
      exact put_spoilt (not_delivers_of_read hk (hread.trans hos)) [] (by simp) w
    · next content hcontent =>
      by_cases hsize : e.size ≤ content.length
      · have hd := delivers_of_read hk (hread.trans hcontent) hsize
        refine Ends.bind (put_delivered hd w) fun _ w' hw' => ?_
        rw [if_neg (by simp [Nat.min_eq_left hsize])]
        exact Ends.pure hw'
      · have hd : ∀ data, ¬ Delivers fs e data := by
          intro data
          rw [Delivers, if_pos hk, hread, hcontent]
          rintro ⟨_, hc, hle, -⟩
          exact hsize (Except.ok.inj hc ▸ hle)
        have hshort : (content.take e.size).length < e.size := by
          rw [List.length_take]
          omega
        simp only [if_pos hshort]
        exact put_spoilt hd _ (by simp) w

lemma write_ends (fs : FileSystem) (e : Entry) (node : Node) (w : Writer) :
    Ends (write fs e node) w (fun _ w' => Wrote fs e node w w') (Spoilt fs e node w) := by
  have htold : ∀ told w', Wrote fs e node w w' →
      Ends (event told) w' (fun _ w' => Wrote fs e node w w') (Spoilt fs e node w) := by
    rintro told w' ⟨hsink, data, hd, hw'⟩
    exact Ends.modify ⟨hsink, data, hd, by simpa using hw'.trans (Grows.note _ w')⟩
  unfold write
  rcases hk : e.kind with _ | _ | _
  · exact Ends.bind (writeFile_ends hk w) fun _ => htold _
  · exact Ends.bind (put_delivered (by simp [Delivers, hk]) w) fun _ => htold _
  · exact Ends.bind (put_delivered (by simp [Delivers, hk]) w) fun _ => htold _

lemma length_of_delivers {e : Entry} {fs : FileSystem} {data : Bytes} (h : Delivers fs e data)
    (he : e.kind ≠ .file → e.size = 0) : data.length = e.size := by
  unfold Delivers at h
  split at h
  · obtain ⟨content, -, hle, rfl⟩ := h
    rw [List.length_take]
    omega
  · next hk => rw [h, he hk, List.length_nil]

/-! ### Claims and entries in step -/

/-- Apart from the name of the base, the claims added are those of the entries written. -/
structure Logs (P : Record → Prop) (w w' : Writer) (rs : List Record) : Prop where
  grows : ∃ cs, Grows w w' cs (rs.map Record.member)
    ∧ (cs.filter fun c => c.1 ≠ baseName).Perm (rs.map Record.claim)
  made : ∀ r ∈ rs, P r

namespace Logs

variable {P R : Record → Prop} {w' w'' : Writer} {rs ss : List Record}

lemma of_grows {cs : List (Bytes × Claimant)} (h : Grows w w' cs [])
    (hcs : cs.filter (fun c => c.1 ≠ baseName) = []) : Logs P w w' [] :=
  ⟨⟨cs, h, by rw [hcs]; exact .refl _⟩, by simp⟩

lemma trans (h : Logs P w w' rs) (h' : Logs P w' w'' ss) : Logs P w w'' (rs ++ ss) := by
  obtain ⟨⟨cs, hg, hp⟩, hm⟩ := h
  obtain ⟨⟨ds, hg', hp'⟩, hm'⟩ := h'
  refine ⟨⟨cs ++ ds, by rw [List.map_append]; exact hg.trans hg', ?_⟩, ?_⟩
  · rw [List.filter_append, List.map_append]
    exact hp.append hp'
  · intro r hr
    exact (List.mem_append.mp hr).elim (hm r) (hm' r)

lemma mono (h : Logs P w w' rs) (hpr : ∀ r ∈ rs, P r → R r) : Logs R w w' rs :=
  ⟨h.grows, fun r hr => hpr r hr (h.made r hr)⟩

end Logs

/-- Every entry added has a claim of its own among the claims added. -/
def Backed (w w' : Writer) : Prop :=
  ∃ cs ms, Grows w w' cs ms ∧ (ms.map Member.name).Subperm (cs.map Prod.fst)

namespace Backed

variable {P : Record → Prop} {w' w'' : Writer} {rs : List Record}

lemma of_grows {cs : List (Bytes × Claimant)} (h : Grows w w' cs []) : Backed w w' :=
  ⟨cs, [], h, List.nil_subperm⟩

lemma trans (h : Backed w w') (h' : Backed w' w'') : Backed w w'' := by
  obtain ⟨cs, ms, hg, hs⟩ := h
  obtain ⟨ds, ns, hg', hs'⟩ := h'
  refine ⟨cs ++ ds, ms ++ ns, hg.trans hg', ?_⟩
  rw [List.map_append, List.map_append]
  exact hs.append hs'

lemma of_logs (h : Logs P w w' rs) : Backed w w' := by
  obtain ⟨cs, hg, hp⟩ := h.grows
  refine ⟨cs, rs.map Record.member, hg, ?_⟩
  rw [Record.map_name_member]
  exact (hp.symm.map Prod.fst).subperm.trans (List.filter_sublist.map Prod.fst).subperm

end Backed

end DeployClient.Archive
