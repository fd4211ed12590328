import DeployClient.FileSystem.Basic
import Mathlib.Tactic.Lemma

/-!
The way that a path takes.

A path is taken step by step, and a link on the way puts the steps of its target in front of
those that are left. So a statement about ways is an induction on the links that may still be
followed and, for each number of links, on the steps.
-/

namespace DeployClient.FileSystem

open Bytes (slash dot)

variable {fs : FileSystem} {intent : Intent} {links : Nat} {slashed : Bool}
  {names front rest : List Bytes} {part : Bytes} {place : Place}

/-! ### Steps -/

/-- What becomes of a way that has been followed up to a link or to its end. -/
def settle (fs : FileSystem) (intent : Intent) (links : Nat) (slashed : Bool) :
    Progress → Except OsError Place
  | .arrived place => .ok place
  | .failed error => .error error
  | .link parent target rest =>
    match links with
    | 0 => .error .tooManyLinks
    | links + 1 =>
      fs.resolveFrom intent links (slashed || (rest = [] && endsWithSlash target))
        (if target.head? = some slash then [] else parent) (steps target ++ rest)

lemma resolveFrom_eq_settle (fs : FileSystem) (intent : Intent) (links : Nat) (slashed : Bool)
    (names rest : List Bytes) : fs.resolveFrom intent links slashed names rest
      = fs.settle intent links slashed (fs.advance intent slashed names rest) := by
  unfold resolveFrom
  cases links with
  | zero => cases fs.advance intent slashed names rest <;> rfl
  | succ links => cases fs.advance intent slashed names rest <;> rfl

/-- What stands at the end of a way; a place without a node is an empty directory. -/
def standing (fs : FileSystem) (names : List Bytes) : Node :=
  (fs.nodeAt? names).getD (.directory (fs.stamp 0o755) [])

lemma standing_eq {n : Node} (h : fs.nodeAt? names = some n) : fs.standing names = n := by
  rw [standing, h, Option.getD_some]

lemma resolveFrom_nil (fs : FileSystem) (intent : Intent) (links : Nat) (slashed : Bool)
    (names : List Bytes) : fs.resolveFrom intent links slashed names []
      = .ok (.taken names (fs.standing names)) := by
  rw [resolveFrom_eq_settle, advance, standing]
  cases fs.nodeAt? names <;> rfl

/-- One step: what is refused, what leads on, and what is replaced by the target of a link. -/
lemma resolveFrom_cons (fs : FileSystem) (intent : Intent) (links : Nat) (slashed : Bool)
    (names : List Bytes) (part : Bytes) (rest : List Bytes) :
    fs.resolveFrom intent links slashed names (part :: rest) =
      if !fs.isPlace names then .error (fs.refusalAt names)
      else if rest = [] ∧ slashed ∧ intent = .write then .error .isDirectory
      else if part = [dot] then fs.resolveFrom intent links slashed names rest
      else if part = [dot, dot] then fs.resolveFrom intent links slashed names.dropLast rest
      else if maxName < part.length then .error .nameTooLong
      else
        match fs.nodeAt? (names ++ [part]) with
        | none => if rest = [] then .ok (.free names part) else .error .noEntry
        | some (.symlink _ target) =>
          if rest = [] ∧ intent = .inspect ∧ !slashed then
            fs.resolveFrom intent links slashed (names ++ [part]) rest
          else fs.settle intent links slashed (.link names target rest)
        | some node =>
          if !node.isDirectory ∧ (rest ≠ [] ∨ slashed) then .error .notDirectory
          else fs.resolveFrom intent links slashed (names ++ [part]) rest := by
  simp only [resolveFrom_eq_settle, advance]
  split
  · rfl
  · split
    · rfl
    · split
      · rfl
      · split
        · rfl
        · split
          · rfl
          · rcases fs.nodeAt? (names ++ [part]) with _ | (_ | _ | _ | _) <;> simp only <;>
              split <;> rfl

/-- A part that is the name of an entry, and not too long for one. -/
structure Plain (part : Bytes) : Prop where
  ne_dot : part ≠ [dot]
  ne_dots : part ≠ [dot, dot]
  length : part.length ≤ maxName

/-- How a way goes on after its first step, if it leads to a place. -/
inductive Stride (fs : FileSystem) (links : Nat) (slashed : Bool) (names : List Bytes)
    (part : Bytes) (rest : List Bytes) (place : Place) : Prop where
  | here (hpart : part = [dot])
      (h : fs.resolveFrom .inspect links slashed names rest = .ok place)
  | up (hpart : part = [dot, dot])
      (h : fs.resolveFrom .inspect links slashed names.dropLast rest = .ok place)
  | free (plain : Plain part) (hnode : fs.nodeAt? (names ++ [part]) = none) (hrest : rest = [])
      (h : place = .free names part)
  | link_end (plain : Plain part) {stamp : Stamp} {target : Bytes}
      (hnode : fs.nodeAt? (names ++ [part]) = some (.symlink stamp target)) (hrest : rest = [])
      (hslashed : slashed = false) (h : place = .taken (names ++ [part]) (.symlink stamp target))
  | link (plain : Plain part) {stamp : Stamp} {target : Bytes}
      (hnode : fs.nodeAt? (names ++ [part]) = some (.symlink stamp target))
      (hend : ¬ (rest = [] ∧ slashed = false)) {l : Nat} (hlinks : links = l + 1)
      (h : fs.resolveFrom .inspect l (slashed || (rest = [] && endsWithSlash target))
        (if target.head? = some slash then [] else names) (steps target ++ rest) = .ok place)
  | node (plain : Plain part) {n : Node} (hnode : fs.nodeAt? (names ++ [part]) = some n)
      (hlink : n.isSymlink = false) (hend : n.isDirectory = true ∨ rest = [] ∧ slashed = false)
      (h : fs.resolveFrom .inspect links slashed (names ++ [part]) rest = .ok place)

lemma stride_of_ok (h : fs.resolveFrom .inspect links slashed names (part :: rest) = .ok place) :
    fs.isPlace names = true ∧ Stride fs links slashed names part rest place := by
  rw [resolveFrom_cons] at h
  split at h
  · simp at h
  · next hplace =>
    refine ⟨by simpa using hplace, ?_⟩
    rw [if_neg (by simp)] at h
    split at h
    · next hdot => exact .here hdot h
    · next hdot =>
      split at h
      · next hdots => exact .up hdots h
      · next hdots =>
        split at h
        · simp at h
        · next hlength =>
          have hplain : Plain part := ⟨hdot, hdots, Nat.le_of_not_lt hlength⟩
          split at h
          · next hnode =>
            split at h
            · next hrest => exact .free hplain hnode hrest (Except.ok.inj h).symm
            · simp at h
          · next stamp target hnode =>
            split at h
            · next hend =>
              rw [hend.1, resolveFrom_nil, standing_eq hnode] at h
              exact .link_end hplain hnode hend.1 (by simpa using hend.2.2)
                (Except.ok.inj h).symm
            · next hend =>
              unfold settle at h
              rcases links with _ | l
              · simp at h
              · exact .link hplain hnode (by simpa using hend) rfl h
          · next n hlink hnode =>
            split at h
            · simp at h
            · next hend =>
              refine .node hplain hnode ?_ ?_ h
              · cases n with
                | symlink stamp target => exact absurd rfl (hlink stamp target)
                | _ => rfl
              · by_cases hd : n.isDirectory = true
                · exact .inl hd
                · exact .inr (by simpa [hd] using hend)

/-! ### The way to a parent -/

/-- The way to a place also leads to each place on it. From one that is no link, it goes on. -/
lemma resolveFrom_append (hrest : rest ≠ [])
    (h : fs.resolveFrom .inspect links slashed names (front ++ rest) = .ok place) :
    ∃ ns d, fs.resolveFrom .inspect links false names front = .ok (.taken ns d)
      ∧ (d.isSymlink = false →
        ∃ l, fs.resolveFrom .inspect l slashed ns rest = .ok place) := by
  induction links using Nat.strongRecOn generalizing slashed names front with
  | _ links ihlinks =>
    induction front generalizing names with
    | nil => exact ⟨names, _, resolveFrom_nil fs .inspect links false names, fun _ => ⟨links, h⟩⟩
    | cons part front ih =>
      rw [List.cons_append] at h
      obtain ⟨hplace, hstride⟩ := stride_of_ok h
      have hne : front ++ rest ≠ [] := by simp [hrest]
      rw [resolveFrom_cons, if_neg (by simp [hplace]), if_neg (by simp)]
      cases hstride with
      | here hpart h =>
        rw [if_pos hpart]
        exact ih h
      | up hpart h =>
        rw [if_neg (by simp [hpart]), if_pos hpart]
        exact ih h
      | free plain hnode hend => exact absurd hend hne
      | link_end plain hnode hend => exact absurd hend hne
      | link plain hnode hend hlinks hgo =>
        rw [if_neg plain.ne_dot, if_neg plain.ne_dots, if_neg (Nat.not_lt.mpr plain.length), hnode]
        by_cases hf : front = []
        · -- the last step of the first part is a link, which is left alone
          subst hf
          refine ⟨_, _, by rw [if_pos (by simp), resolveFrom_nil, standing_eq hnode]; rfl, ?_⟩
          simp [Node.isSymlink]
        · subst hlinks
          simp only [hf, false_and, if_false, settle, decide_false, Bool.false_and, Bool.or_false]
          rw [decide_eq_false hne, Bool.false_and, Bool.or_false, ← List.append_assoc] at hgo
          exact ihlinks _ (Nat.lt_succ_self _) hgo
      | node plain hnode hlink hend h =>
        have hdir := hend.resolve_right fun he => hne he.1
        rw [if_neg plain.ne_dot, if_neg plain.ne_dots, if_neg (Nat.not_lt.mpr plain.length), hnode]
        next n =>
        cases n with
        | directory stamp entries =>
          simp only [hdir, Bool.not_true, Bool.false_eq_true, false_and, if_false]
          exact ih h
        | _ => simp [Node.isDirectory] at hdir

/-- A place as the tree has it: what is taken is taken by what stands there, and a free name is
free in a directory. -/
def Finds (fs : FileSystem) : Place → Prop
  | .taken ns d => d = fs.standing ns
  | .free parent name => fs.isPlace parent = true ∧ fs.nodeAt? (parent ++ [name]) = none

lemma finds_of_advance (h : fs.advance intent slashed names rest = .arrived place) :
    fs.Finds place := by
  fun_induction advance fs intent slashed names rest with
  | case1 names n hn =>
    obtain rfl := Progress.arrived.inj h
    exact (standing_eq hn).symm
  | case2 names hn =>
    obtain rfl := Progress.arrived.inj h
    simp [Finds, standing, hn]
  | case8 names part hplace hdot hdots hlength hn =>
    obtain rfl := Progress.arrived.inj h
    exact ⟨by simpa using hplace, hn⟩
  | case5 _ _ _ _ ih => exact ih h
  | case6 _ _ _ _ _ ih => exact ih h
  | case10 _ _ _ _ _ _ _ _ _ _ _ _ ih => exact ih h
  | case13 _ _ _ _ _ _ _ _ _ _ _ _ ih => exact ih h
  | _ => simp at h

/-- What a way leads to is as the tree has it. -/
lemma finds_of_ok (h : fs.resolveFrom intent links slashed names rest = .ok place) :
    fs.Finds place := by
  induction links generalizing slashed names rest with
  | zero =>
    rw [resolveFrom_eq_settle] at h
    unfold settle at h
    split at h
    · next hadvance => exact Except.ok.inj h ▸ finds_of_advance hadvance
    · simp at h
    · simp at h
  | succ links ih =>
    rw [resolveFrom_eq_settle] at h
    unfold settle at h
    split at h
    · next hadvance => exact Except.ok.inj h ▸ finds_of_advance hadvance
    · simp at h
    · exact ih h

/-- What is found is what stands there. -/
lemma standing_of_taken {ns : List Bytes} {d : Node}
    (h : fs.resolveFrom intent links slashed names rest = .ok (.taken ns d)) :
    d = fs.standing ns :=
  finds_of_ok h

/-- Following links changes nothing where no link stands at the end. -/
lemma resolveFrom_follow {ns : List Bytes} {d : Node} (hd : d.isSymlink = false)
    (h : fs.resolveFrom .inspect links slashed names rest = .ok (.taken ns d)) :
    fs.resolveFrom .follow links slashed names rest = .ok (.taken ns d) := by
  induction links using Nat.strongRecOn generalizing slashed names rest with
  | _ links ihlinks =>
    induction rest generalizing names with
    | nil =>
      rw [resolveFrom_nil] at h ⊢
      exact h
    | cons part rest ih =>
      obtain ⟨hplace, hstride⟩ := stride_of_ok h
      rw [resolveFrom_cons, if_neg (by simp [hplace]), if_neg (by simp)]
      cases hstride with
      | here hpart h =>
        rw [if_pos hpart]
        exact ih h
      | up hpart h =>
        rw [if_neg (by simp [hpart]), if_pos hpart]
        exact ih h
      | free plain hnode hrest h => simp at h
      | link_end plain hnode hrest hslashed h =>
        obtain ⟨-, rfl⟩ := Place.taken.inj h
        simp [Node.isSymlink] at hd
      | link plain hnode hend hlinks hgo =>
        subst hlinks
        rw [if_neg plain.ne_dot, if_neg plain.ne_dots, if_neg (Nat.not_lt.mpr plain.length), hnode]
        simp only [reduceCtorEq, false_and, and_false, if_false, settle]
        exact ihlinks _ (Nat.lt_succ_self _) hgo
      | node plain hnode hlink hend h =>
        rw [if_neg plain.ne_dot, if_neg plain.ne_dots, if_neg (Nat.not_lt.mpr plain.length), hnode]
        next n =>
        have hgo : ¬ ((!n.isDirectory) = true ∧ (rest ≠ [] ∨ slashed = true)) := by
          rintro ⟨hnd, hmore⟩
          rcases hend with hdir | ⟨rfl, rfl⟩
          · simp [hdir] at hnd
          · simp at hmore
        cases n with
        | symlink stamp target => simp [Node.isSymlink] at hlink
        | _ =>
          simp only [if_neg hgo]
          exact ih h

end DeployClient.FileSystem
