import DeployClient.Archive.Build
import Mathlib.Data.List.Perm.Subperm

/-!
What the steps of a writer do to its claims and its entries.

A step only adds: claims at the end of the claims, entries at the end of the entries. What is
said about a step is said about both of its ends, the value and the error, so that it also
holds of an archive that was given up.
-/

namespace DeployClient.Archive

open Tar (Member)

/-! ### One step after the other -/

section

variable {ε σ α β : Type} {m : EStateM ε σ α} {s s' : σ}

lemma bind_of_ok {f : α → EStateM ε σ β} {a : α} (h : m s = .ok a s') :
    (m >>= f) s = f a s' := by
  show EStateM.bind m f s = f a s'
  simp only [EStateM.bind, h]

lemma bind_of_error {f : α → EStateM ε σ β} {e : ε} (h : m s = .error e s') :
    (m >>= f) s = .error e s' := by
  show EStateM.bind m f s = .error e s'
  simp only [EStateM.bind, h]

end

section

variable {α β : Type} {w w' : Writer} {Q : α → Writer → Prop} {E : Error → Writer → Prop}

/-! ### Ends of a run -/

/-- The run ends with a value in `Q`, or with an error in `E`. -/
def Ends (m : Writing α) (w : Writer) (Q : α → Writer → Prop) (E : Error → Writer → Prop) :
    Prop :=
  match m w with
  | .ok a w' => Q a w'
  | .error e w' => E e w'

namespace Ends

lemma pure {a : α} (h : Q a w) : Ends (pure a) w Q E := h

lemma throw {e : Error} (h : E e w) : Ends (throw e : Writing α) w Q E := h

lemma modify {Q : Unit → Writer → Prop} {f : Writer → Writer} (h : Q () (f w)) :
    Ends (modify f) w Q E := h

lemma get {Q : Writer → Writer → Prop} (h : Q w w) : Ends get w Q E := h

lemma bind {m : Writing α} {f : α → Writing β} {R : β → Writer → Prop} (hm : Ends m w Q E)
    (hf : ∀ a w', Q a w' → Ends (f a) w' R E) : Ends (m >>= f) w R E := by
  unfold Ends at hm ⊢
  rcases h : m w with ⟨a, w'⟩ | ⟨e, w'⟩
  · rw [h] at hm
    rw [bind_of_ok h]
    exact hf a w' hm
  · rw [h] at hm
    rw [bind_of_error h]
    exact hm

lemma mono {m : Writing α} {R : α → Writer → Prop} {F : Error → Writer → Prop}
    (hm : Ends m w Q E) (hq : ∀ a w', Q a w' → R a w') (he : ∀ e w', E e w' → F e w') :
    Ends m w R F := by
  unfold Ends at hm ⊢
  split at hm
  · exact hq _ _ hm
  · exact he _ _ hm

/-- Each end of a run together with the equation that reaches it. -/
lemma with_run {m : Writing α} (hm : Ends m w Q E) :
    Ends m w (fun a w' => Q a w' ∧ m w = .ok a w') fun e w' => E e w' ∧ m w = .error e w' := by
  unfold Ends at hm ⊢
  rcases h : m w with ⟨a, w'⟩ | ⟨e, w'⟩
  · rw [h] at hm
    exact ⟨hm, rfl⟩
  · rw [h] at hm
    exact ⟨hm, rfl⟩

lemma of_ok {m : Writing α} {a : α} {w' : Writer} (hm : Ends m w Q E) (h : m w = .ok a w') :
    Q a w' := by
  rw [Ends, h] at hm
  exact hm

lemma of_error {m : Writing α} {e : Error} {w' : Writer} (hm : Ends m w Q E)
    (h : m w = .error e w') : E e w' := by
  rw [Ends, h] at hm
  exact hm

lemma ofOs {r : Except OsError α} (hok : ∀ a, r = .ok a → Q a w)
    (herr : ∀ e, r = .error e → E (.io (.os e)) w) : Ends (ofOs r) w Q E := by
  cases r with
  | ok a => exact hok a rfl
  | error e => exact herr e rfl

/-- A run that cannot end with an error ends with a value. -/
lemma exists_ok {m : Writing α} (hm : Ends m w Q E) (hE : ∀ e w', ¬ E e w') :
    ∃ a w', m w = .ok a w' ∧ Q a w' := by
  unfold Ends at hm
  rcases h : m w with ⟨a, w'⟩ | ⟨e, w'⟩
  · rw [h] at hm
    exact ⟨a, w', rfl, hm⟩
  · rw [h] at hm
    exact absurd hm (hE e w')

end Ends

end

/-! ### Claims -/

namespace Claims

def names (c : Claims) : List Bytes := c.taken.map Prod.fst

variable {c : Claims} {name : Bytes} {who : Claimant}

lemma holder?_eq_none_iff : c.holder? name = none ↔ name ∉ c.names := by
  simp only [holder?, Option.map_eq_none_iff, List.find?_eq_none, decide_eq_true_eq, names,
    List.mem_map, not_exists, not_and]

lemma mem_taken_of_holder? (h : c.holder? name = some who) : (name, who) ∈ c.taken := by
  obtain ⟨e, he, rfl⟩ := Option.map_eq_some_iff.mp h
  have hname : e.1 = name := by simpa using List.find?_some he
  rw [← hname]
  exact List.mem_of_find?_eq_some he

lemma mem_names_of_holder? (h : c.holder? name = some who) : name ∈ c.names :=
  List.mem_map.mpr ⟨_, mem_taken_of_holder? h, rfl⟩

lemma taken_claim (h : c.holder? name = none) :
    (c.claim name who).taken = c.taken ++ [(name, who)] := by
  rw [claim, h]

end Claims

/-! ### Growth -/

@[simp] lemma Writer.members_note (n : Note) (w : Writer) : (w.note n).members = w.members := rfl
@[simp] lemma Writer.sinkFault_note (n : Note) (w : Writer) :
    (w.note n).sinkFault = w.sinkFault := rfl

/-- A step has added claims and entries, and has changed nothing else but the notes. -/
structure Grows (w w' : Writer) (cs : List (Bytes × Claimant)) (ms : List Member) : Prop where
  patterns : w'.patterns = w.patterns
  filesOnly : w'.filesOnly = w.filesOnly
  sinkFault : w'.sinkFault = w.sinkFault
  mute : w'.mute = w.mute
  claims : w'.claims.taken = w.claims.taken ++ cs
  members : w'.members = w.members ++ ms
  unique : w.claims.names.Nodup → w'.claims.names.Nodup

namespace Grows

variable {w w' w'' : Writer} {cs ds : List (Bytes × Claimant)} {ms ns : List Member}

lemma refl (w : Writer) : Grows w w [] [] :=
  ⟨rfl, rfl, rfl, rfl, by simp, by simp, id⟩

lemma trans (h : Grows w w' cs ms) (h' : Grows w' w'' ds ns) :
    Grows w w'' (cs ++ ds) (ms ++ ns) where
  patterns := h'.patterns.trans h.patterns
  filesOnly := h'.filesOnly.trans h.filesOnly
  sinkFault := h'.sinkFault.trans h.sinkFault
  mute := h'.mute.trans h.mute
  claims := by rw [h'.claims, h.claims, List.append_assoc]
  members := by rw [h'.members, h.members, List.append_assoc]
  unique := fun hw => h'.unique (h.unique hw)

lemma note (n : Note) (w : Writer) : Grows w (w.note n) [] [] :=
  ⟨rfl, rfl, rfl, rfl, by simp [Writer.note], by simp [Writer.note], id⟩

lemma tell (d : Diagnostic) (w : Writer) : Grows w (w.tell d) [] [] := by
  unfold Writer.tell
  split
  · exact refl w
  · exact note _ w

lemma append (m : Member) (w : Writer) : Grows w (w.append m) [] [m] :=
  ⟨rfl, rfl, rfl, rfl, by simp [Writer.append], by simp [Writer.append], id⟩

lemma claim {name : Bytes} (who : Claimant) (h : w.claims.holder? name = none) :
    Grows w (w.claim name who) [(name, who)] [] where
  patterns := rfl
  filesOnly := rfl
  sinkFault := rfl
  mute := rfl
  claims := Claims.taken_claim h
  members := by simp [Writer.claim]
  unique := by
    intro hw
    have hnew : name ∉ w.claims.names := Claims.holder?_eq_none_iff.mp h
    simp only [Writer.claim, Claims.names, Claims.taken_claim h, List.map_append, List.map_cons,
      List.map_nil]
    exact List.nodup_append.mpr ⟨hw, by simp, by
      intro a ha b hb
      rw [List.mem_singleton.mp hb]
      rintro rfl
      exact hnew ha⟩

lemma names_subset (h : Grows w w' cs ms) {name : Bytes} (hn : name ∈ w.claims.names) :
    name ∈ w'.claims.names := by
  rw [Claims.names, h.claims, List.map_append]
  exact List.mem_append_left _ hn

end Grows

end DeployClient.Archive
