import DeployClient.Toml.Printer
import Mathlib.Data.List.Perm.Basic
import Mathlib.Data.String.Basic

/-!
Entries in the order of their keys.

A table is its entries in that order. While a file is read they come in the order in which they
were written, and they are put in order by inserting one after the other.
-/

namespace DeployClient.Toml

variable {α β : Type} {key k : String} {v w : α} {es l : List (String × α)} {e : String × α}

/-! ### Entries in the order in which they come -/

lemma lookup?_eq_none (h : key ∉ es.map Prod.fst) : lookup? key es = none := by
  rw [lookup?, List.find?_eq_none.mpr]
  · rfl
  · intro e he heq
    exact h (List.mem_map.mpr ⟨e, he, by simpa using heq⟩)

lemma put_of_notMem (h : key ∉ es.map Prod.fst) : put key v es = es ++ [(key, v)] := by
  induction es with
  | nil => rfl
  | cons e es ih =>
    rw [List.map_cons, List.mem_cons, not_or] at h
    rw [put, if_neg h.1, ih h.2, List.cons_append]

lemma lookup?_concat (h : key ∉ es.map Prod.fst) : lookup? key (es ++ [(key, v)]) = some v := by
  have hnone : es.find? (fun e => e.1 = key) = none := by
    simpa [lookup?] using lookup?_eq_none h
  rw [lookup?, List.find?_append, hnone]
  simp

lemma put_concat (h : key ∉ es.map Prod.fst) :
    put key w (es ++ [(key, v)]) = es ++ [(key, w)] := by
  induction es with
  | nil => simp [put]
  | cons e es ih =>
    rw [List.map_cons, List.mem_cons, not_or] at h
    rw [List.cons_append, put, if_neg h.1, ih h.2, List.cons_append]

/-! ### Inserting -/

/-- The keys grow, so none is there twice. -/
def Sorted (es : List (String × α)) : Prop := es.Pairwise fun a b => a.1 < b.1

lemma Sorted.nodup (h : Sorted es) : (es.map Prod.fst).Nodup :=
  List.pairwise_map.mpr (h.imp fun hlt => hlt.ne)

lemma mem_insert (h : e ∈ insert key v es) : e = (key, v) ∨ e ∈ es := by
  induction es with
  | nil => exact .inl (List.mem_singleton.mp h)
  | cons f es ih =>
    rw [insert] at h
    split_ifs at h
    · exact List.mem_cons.mp h
    · rcases List.mem_cons.mp h with h | h
      · exact .inl h
      · exact .inr (List.mem_cons_of_mem _ h)
    · rcases List.mem_cons.mp h with h | h
      · exact .inr (h ▸ List.mem_cons_self)
      · exact (ih h).imp_right (List.mem_cons_of_mem _)

lemma sorted_insert (h : Sorted es) : Sorted (insert key v es) := by
  induction es with
  | nil => exact List.pairwise_singleton _ _
  | cons f es ih =>
    obtain ⟨hfirst, hrest⟩ := List.pairwise_cons.mp h
    rw [insert]
    split_ifs with hlt heq
    · refine List.pairwise_cons.mpr ⟨fun e he => ?_, h⟩
      rcases List.mem_cons.mp he with rfl | he
      · exact hlt
      · exact hlt.trans (hfirst e he)
    · exact List.pairwise_cons.mpr ⟨fun e he => heq ▸ hfirst e he, hrest⟩
    · refine List.pairwise_cons.mpr ⟨fun e he => ?_, ih hrest⟩
      rcases mem_insert he with rfl | he
      · exact lt_of_le_of_ne (not_lt.mp hlt) (Ne.symm heq)
      · exact hfirst e he

lemma insert_perm (h : key ∉ es.map Prod.fst) : (insert key v es).Perm ((key, v) :: es) := by
  induction es with
  | nil => rfl
  | cons f es ih =>
    rw [List.map_cons, List.mem_cons, not_or] at h
    rw [insert, if_neg h.1]
    split_ifs
    · rfl
    · exact ((ih h.2).cons f).trans (List.Perm.swap _ _ _)

lemma lookup?_insert_self : lookup? key (insert key v es) = some v := by
  induction es with
  | nil => simp [insert, lookup?]
  | cons f es ih =>
    rw [insert]
    split_ifs with hlt heq
    · simp [lookup?]
    · simp [lookup?]
    · unfold lookup? at ih ⊢
      rw [List.find?_cons_of_neg (by simpa using Ne.symm heq), ih]

lemma lookup?_insert_of_ne (h : k ≠ key) : lookup? k (insert key v es) = lookup? k es := by
  have hkey : ¬(key = k) := Ne.symm h
  induction es with
  | nil => simp [insert, lookup?, hkey]
  | cons f es ih =>
    unfold lookup? at ih ⊢
    rw [insert]
    split_ifs with hlt heq
    · rw [List.find?_cons_of_neg (by simpa using hkey)]
    · rw [List.find?_cons_of_neg (by simpa using hkey),
        List.find?_cons_of_neg (by simpa [← heq] using hkey)]
    · by_cases hfound : f.1 = k
      · rw [List.find?_cons_of_pos (by simpa using hfound),
          List.find?_cons_of_pos (by simpa using hfound)]
      · rw [List.find?_cons_of_neg (by simpa using hfound),
          List.find?_cons_of_neg (by simpa using hfound), ih]

lemma mem_of_lookup? (h : lookup? key es = some v) : (key, v) ∈ es := by
  obtain ⟨e, he, rfl⟩ := Option.map_eq_some_iff.mp h
  have hkey : e.1 = key := by simpa using List.find?_some he
  exact hkey ▸ List.mem_of_find?_eq_some he

/-- An entry is there exactly if it is found under its key. -/
lemma lookup?_eq_some_iff (hes : Sorted es) : lookup? e.1 es = some e.2 ↔ e ∈ es := by
  refine ⟨mem_of_lookup?, fun he => ?_⟩
  induction es with
  | nil => simp at he
  | cons f es ih =>
    obtain ⟨hfirst, hrest⟩ := List.pairwise_cons.mp hes
    rcases List.mem_cons.mp he with rfl | he
    · simp [lookup?]
    · unfold lookup? at ih ⊢
      rw [List.find?_cons_of_neg (by simpa using (hfirst e he).ne), ih hrest he]

lemma eq_of_perm (hl : Sorted l) (hes : Sorted es) (h : l.Perm es) : l = es :=
  h.eq_of_pairwise (fun _ _ _ _ hab hba => absurd hab hba.asymm) hl hes

/-- Two tables with the same entries are the same. -/
lemma eq_of_mem_iff (hl : Sorted l) (hes : Sorted es) (h : ∀ e, e ∈ l ↔ e ∈ es) : l = es := by
  have hnodup : ∀ {m : List (String × α)}, Sorted m → m.Nodup :=
    fun hm => hm.imp fun hlt heq => hlt.ne (congrArg Prod.fst heq)
  exact eq_of_perm hl hes ((List.perm_ext_iff_of_nodup (hnodup hl) (hnodup hes)).mpr h)

/-- **Entries that are inserted one after the other, in any order, are put in order.** -/
theorem foldr_insert_of_perm (hes : Sorted es) (h : l.Perm es) :
    l.foldr (fun e => insert e.1 e.2) [] = es := by
  have hnodup : (l.map Prod.fst).Nodup := (h.map Prod.fst).nodup_iff.mpr hes.nodup
  have hspec : Sorted (l.foldr (fun e => insert e.1 e.2) [])
      ∧ (l.foldr (fun e => insert e.1 e.2) []).Perm l := by
    clear h
    induction l with
    | nil => exact ⟨List.Pairwise.nil, .refl _⟩
    | cons e l ih =>
      rw [List.map_cons, List.nodup_cons] at hnodup
      obtain ⟨hsorted, hperm⟩ := ih hnodup.2
      have hnew : e.1 ∉ (l.foldr (fun e => insert e.1 e.2) []).map Prod.fst :=
        fun hmem => hnodup.1 ((hperm.map Prod.fst).mem_iff.mp hmem)
      exact ⟨sorted_insert hsorted, (insert_perm hnew).trans (hperm.cons e)⟩
  exact eq_of_perm hspec.1 hes (hspec.2.trans h)

/-! ### Entries by rank -/

lemma inRankOrder_map (f : α → β) (parts : List (Nat × α)) :
    inRankOrder (parts.map fun p => (p.1, f p.2)) = (inRankOrder parts).map f := by
  have hrank : ∀ r, ((parts.map fun p => (p.1, f p.2)).filter fun p => p.1 = r).map Prod.snd
      = ((parts.filter fun p => p.1 = r).map Prod.snd).map f := by
    intro r
    induction parts with
    | nil => rfl
    | cons p parts ih =>
      by_cases h : p.1 = r <;> simp_all
  simp only [inRankOrder, hrank, List.map_append]

lemma inRankOrder_perm {parts : List (Nat × α)} (h : ∀ p ∈ parts, p.1 ≤ 2) :
    (inRankOrder parts).Perm (parts.map Prod.snd) := by
  induction parts with
  | nil => rfl
  | cons p parts ih =>
    have ih := ih fun q hq => h q (List.mem_cons_of_mem _ hq)
    have hp := h p List.mem_cons_self
    rw [List.map_cons]
    refine .trans ?_ (ih.cons p.2)
    have hcases : p.1 = 0 ∨ p.1 = 1 ∨ p.1 = 2 := by omega
    unfold inRankOrder
    rcases hcases with hp | hp | hp
    · simp [hp]
    · simp [hp]
    · simp only [hp, List.filter_cons, Nat.reduceEqDiff, decide_true, decide_false, if_true,
        Bool.false_eq_true, if_false, List.map_cons]
      exact List.perm_middle

lemma Value.rank_le (v : Value) : v.rank ≤ 2 := by
  unfold Value.rank
  split
  · exact le_rfl
  · split <;> decide
  · decide

lemma ranked_perm (es : Entries) : (ranked es).Perm es := by
  have hranks : ∀ p ∈ es.map (fun e => (e.2.rank, e)), p.1 ≤ 2 := by
    intro p hp
    obtain ⟨e, -, rfl⟩ := List.mem_map.mp hp
    exact Value.rank_le e.2
  simpa [ranked, Function.comp_def] using inRankOrder_perm hranks

end DeployClient.Toml
