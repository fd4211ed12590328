import DeployClient.Proofs.Credentials
import DeployClient.Proofs.EnvironmentText

/-!
Credentials from the environment.

A variable for the target or the token takes the place of the entry of the file, with the value that
its text spells. That is the text itself, unless the text shows that it is something else, or is a
number, or has blanks at its ends. A value that is no string is refused.
-/

namespace DeployClient.Settings

open Toml (Value Entries)

variable {fs : FileSystem} {path : Path} {c c' : Config} {es : Entries} {v w : Value}
  {before after : Environment} {core word : List Char} {name text s : String}

/-! ### Texts that stand for themselves -/

/-- A number with a point, or an integer that fits into 64 bits, with a sign or without. -/
def IsNumber (word : List Char) : Prop :=
  '.' ∈ word ∧ isFloat word = true ∨ (integer? word).isSome = true

/-- The text is no more than a text: it does not show that it is something else, and if it is a
word, it has no blanks at its ends and is no number. -/
structure IsVerbatim (text : String) : Prop where
  not_closed : ∀ gap core gap' v, Blanks gap → Closed core v → Blanks gap' →
    text.toList ≠ gap ++ core ++ gap'
  word : IsWord (skip text.toList) →
    Text.trim text.toList = text.toList ∧ ¬ IsNumber text.toList

lemma wordValue_eq_string_iff :
    wordValue word = .string s ↔ ¬ IsNumber (Text.trim word) ∧ s.toList = Text.trim word := by
  unfold wordValue IsNumber
  simp only [List.contains_eq_mem, decide_eq_true_eq]
  split
  · next hfloat => simp [hfloat]
  · next hfloat =>
    split
    · next i hi => simp [hi]
    · next hi =>
      simp only [hi, hfloat, Value.string.injEq]
      constructor
      · rintro rfl
        simp
      · rintro ⟨-, hs⟩
        rw [← hs, String.ofList_toList]

lemma Closed.length_lt (h : Closed core (.string s)) : s.length < core.length := by
  cases h with
  | quoted h => exact h.length_lt
  | character d => simp

lemma isBlank_of_isAsciiBlank {c : Char} (h : isAsciiBlank c = true) : Text.isBlank c = true := by
  simp only [isAsciiBlank, Bool.or_eq_true, decide_eq_true_eq] at h
  rcases h with (((rfl | rfl) | rfl) | rfl) | rfl
  all_goals decide

lemma trim_skip (cs : List Char) : Text.trim (skip cs) = Text.trim cs := by
  obtain ⟨gap, hgap, hcs, -⟩ := exists_blanks cs
  have hblank : ∀ c ∈ gap, Text.isBlank c = true := fun c hc => isBlank_of_isAsciiBlank (hgap c hc)
  conv_rhs => rw [← hcs]
  rw [Text.trim, Text.trim, Text.trimStart, Text.trimStart, List.dropWhile_append_of_pos hblank]

/-- **A text is its own value** if it stands for itself, and only then. -/
theorem valueOf_eq_string_iff : valueOf text = .string text ↔ IsVerbatim text := by
  constructor
  · intro h
    refine ⟨fun gap core gap' v hgap hcore hgap' htext => ?_, fun hword => ?_⟩
    · have hv : valueOf text = v := valueOf_of_spells (htext ▸ .closed hgap hcore hgap')
      obtain rfl := h.symm.trans hv
      have hlength := hcore.length_lt
      rw [← String.length_toList, htext, List.length_append, List.length_append] at hlength
      omega
    · obtain ⟨gap, hgap, htext, -⟩ := exists_blanks text.toList
      have hspells : Spells text.toList (wordValue (skip text.toList)) :=
        htext.subst (motive := fun cs => Spells cs _) (.word hgap hword)
      have hv := valueOf_of_spells hspells
      obtain ⟨hnumber, htrim⟩ := wordValue_eq_string_iff.mp (hv.symm.trans h)
      rw [trim_skip] at hnumber htrim
      exact ⟨htrim.symm, htrim ▸ hnumber⟩
  · intro h
    by_cases hspells : ∃ v, Spells text.toList v
    · obtain ⟨v, hv⟩ := hspells
      rw [valueOf_of_spells hv]
      generalize hcs : text.toList = cs at hv
      cases hv with
      | @closed gap core gap' v hgap hcore hgap' =>
        exact absurd hcs (h.not_closed _ _ _ _ hgap hcore hgap')
      | @word gap word hgap hword =>
        have hskip : skip text.toList = word := by
          rw [hcs]
          exact skip_append hgap fun c hc => (hword.start c hc).1
        obtain ⟨htrim, hnumber⟩ := h.word (hskip ▸ hword)
        rw [wordValue_eq_string_iff, ← hskip, trim_skip, htrim]
        exact ⟨hnumber, rfl⟩
    · exact valueOf_of_not_spells fun v hv => hspells ⟨v, hv⟩

/-! ### Entries -/

/-- What a login stores. -/
inductive Credential where
  | target
  | token

namespace Credential

def key : Credential → String
  | .target => "target"
  | .token => "token"

def set : Credential → String → Config → Config
  | .target, s, c => { c with target := some s }
  | .token, s, c => { c with token := some s }

variable {k : Credential}

lemma keysOf?_of_foldCase (h : foldCase name.toList = variableStart ++ k.key.toList) :
    keysOf? name = some [k.key] := by
  unfold keysOf?
  rw [h]
  cases k
  all_goals rfl

lemma environmentEntries_eq (h : foldCase name.toList = variableStart ++ k.key.toList)
    (hforeign : Environment.IsForeign (before ++ after)) :
    environmentEntries (before ++ (name, text) :: after) = [(k.key, valueOf text)] := by
  obtain ⟨hbefore, hafter⟩ := List.forall_mem_append.mp hforeign
  rw [environmentEntries_eq_foldl, List.foldl_append, foldl_addVariable_of_isForeign hbefore,
    List.foldl_cons, foldl_addVariable_of_isForeign hafter, addVariable, keysOf?_of_foldCase h]
  rfl

lemma ofEntries_insert (h : Config.ofEntries es = .ok c) :
    Config.ofEntries (Toml.insert k.key v es)
      = match v.string? with
        | some s => .ok (k.set s c)
        | none => .error (.entry k.key) := by
  obtain ⟨hlevel, htarget, htoken⟩ := ofEntries_eq_ok_iff.mp h
  cases k with
  | target =>
    rw [Config.ofEntries, entry, entry, entry, key, Toml.lookup?_insert_self,
      Toml.lookup?_insert_of_ne (by decide), Toml.lookup?_insert_of_ne (by decide), hlevel, htoken]
    cases v <;> rfl
  | token =>
    rw [Config.ofEntries, entry, entry, entry, key, Toml.lookup?_insert_self,
      Toml.lookup?_insert_of_ne (by decide), Toml.lookup?_insert_of_ne (by decide), hlevel, htarget]
    cases v <;> rfl

lemma string?_overlay (w v : Value) : (overlay w v).string? = v.string? := by
  cases w <;> cases v <;> rfl

lemma combine_eq (h : Config.combine es [] = .ok c)
    (hname : foldCase name.toList = variableStart ++ k.key.toList)
    (hforeign : Environment.IsForeign (before ++ after)) :
    Config.combine es (before ++ (name, text) :: after)
      = match (valueOf text).string? with
        | some s => .ok (k.set s c)
        | none => .error (.entry k.key) := by
  have hfile : Config.ofEntries es = .ok c := h
  rw [Config.combine, environmentEntries_eq hname hforeign, overlayEntries, overlayEntries,
    ofEntries_insert hfile]
  cases Toml.lookup? k.key es with
  | none => rfl
  | some w => rw [string?_overlay]

/-- **A variable takes the place of the entry of the file** if its value is a string, and otherwise
there is no configuration. -/
theorem load_eq (h : Config.load fs [] path = .ok c)
    (hname : foldCase name.toList = variableStart ++ k.key.toList)
    (hforeign : Environment.IsForeign (before ++ after)) :
    Config.load fs (before ++ (name, text) :: after) path
      = match (valueOf text).string? with
        | some s => .ok (k.set s c)
        | none => .error (.unreadable (.entry k.key)) := by
  rw [Config.load] at h ⊢
  cases hfile : Config.fileEntries fs path with
  | error f => simp [hfile, Except.bind, Except.mapError] at h
  | ok es =>
    rw [hfile, Except.bind] at h
    cases hcombine : Config.combine es [] with
    | error f => simp [hcombine, Except.mapError] at h
    | ok c' =>
      rw [hcombine] at h
      obtain rfl := Except.ok.inj h
      rw [Except.bind, combine_eq hcombine hname hforeign]
      cases (valueOf text).string? <;> rfl

/-- The configuration has this text for the credential, and is otherwise that of the file. -/
def IsTaken (k : Credential) (s : String) (file c : Config) : Prop :=
  match k with
  | .target => c.target = some s ∧ c.token = file.token ∧ c.level = file.level
      ∧ ∃ base n, s.toList = base.toList ++ List.replicate n '/' ∧ base.toList.getLast? ≠ some '/'
        ∧ ∀ p, c.url p = .ok (base ++ p)
  | .token => c.requireToken = .ok s ∧ c.target = file.target ∧ c.level = file.level

lemma isTaken_set (k : Credential) (s : String) (c : Config) : k.IsTaken s c (k.set s c) := by
  cases k with
  | target =>
    obtain ⟨n, hs, hlast⟩ := exists_trimSlashes s
    exact ⟨rfl, rfl, rfl, Config.trimSlashes s, n, hs, hlast, fun p => rfl⟩
  | token => exact ⟨rfl, rfl, rfl⟩

lemma IsTaken.eq_set (h : k.IsTaken s c c') : c' = k.set s c := by
  obtain ⟨target, token, level⟩ := c'
  cases k with
  | target =>
    obtain ⟨rfl, rfl, rfl, -⟩ := h
    rfl
  | token =>
    obtain ⟨htoken, rfl, rfl⟩ := h
    cases token with
    | none => cases htoken
    | some t =>
      obtain rfl := Except.ok.inj htoken
      rfl

lemma set_inj {s' : String} (h : k.set s c = k.set s' c) : s = s' := by
  cases k with
  | target => exact Option.some.inj (congrArg Config.target h)
  | token => exact Option.some.inj (congrArg Config.token h)

end Credential

/-! ### Loading -/

/-- **Credentials in the environment take precedence, with the values that they spell.** A text that
stands for itself is taken as it is, and no other is. If the text spells another string, that string
is taken; if it spells a value that is no string, the configuration is not loaded, for this
entry. -/
theorem environment_credential_spelt (k : Credential) (h : Config.load fs [] path = .ok c)
    (hname : foldCase name.toList = variableStart ++ k.key.toList)
    (hforeign : Environment.IsForeign (before ++ after)) (text : String) :
    let loaded := Config.load fs (before ++ (name, text) :: after) path
    (IsVerbatim text ↔ ∃ c', loaded = .ok c' ∧ k.IsTaken text c c')
      ∧ (∀ s, Spells text.toList (.string s) → ∃ c', loaded = .ok c' ∧ k.IsTaken s c c')
      ∧ ∀ v, Spells text.toList v → (∀ s, v ≠ .string s) →
        loaded = .error (.unreadable (.entry k.key)) := by
  intro loaded
  have hloaded : loaded = match (valueOf text).string? with
      | some s => .ok (k.set s c)
      | none => .error (.unreadable (.entry k.key)) := Credential.load_eq h hname hforeign
  have htaken : ∀ s, valueOf text = .string s → ∃ c', loaded = .ok c' ∧ k.IsTaken s c c' := by
    intro s hs
    rw [hs] at hloaded
    exact ⟨_, hloaded, k.isTaken_set s c⟩
  refine ⟨⟨fun hverbatim => htaken text (valueOf_eq_string_iff.mpr hverbatim), ?_⟩,
    fun s hs => htaken s (valueOf_of_spells hs), fun v hv hstring => ?_⟩
  · rintro ⟨c', hc', hset⟩
    rw [← valueOf_eq_string_iff]
    cases hvalue : valueOf text with
    | string s =>
      obtain ⟨c'', hc'', hset'⟩ := htaken s hvalue
      obtain rfl := Except.ok.inj (hc'.symm.trans hc'')
      rw [Credential.set_inj (hset.eq_set.symm.trans hset'.eq_set)]
    | _ =>
      rw [hvalue] at hloaded
      exact absurd (hc'.symm.trans hloaded) (by simp [Value.string?])
  · rw [valueOf_of_spells hv] at hloaded
    cases v with
    | string s => exact absurd rfl (hstring s)
    | _ => exact hloaded

/-- A target and a token in the environment of a file that has both. -/
theorem environment_credential_spelt_both :
    let path : Path := ⟨[47, 99]⟩
    let fs := FileSystem.single "target = \"https://p\"\ntoken = \"t\"\n"
    (∃ c, Config.load fs [("LANG", "C"), ("Paas_Target", "https://q//")] path = .ok c
        ∧ Credential.target.IsTaken "https://q//" ⟨some "https://p", some "t", .warn⟩ c)
      ∧ ∃ c, Config.load fs [("PAAS_TOKEN", "a1.b2=")] path = .ok c
        ∧ Credential.token.IsTaken "a1.b2=" ⟨some "https://p", some "t", .warn⟩ c := by
  intro path fs
  have hload : Config.load fs [] path = .ok ⟨some "https://p", some "t", .warn⟩ := by
    rw [Config.load, FileSystem.fileEntries_single]
    decide +kernel
  have htarget : IsVerbatim "https://q//" := valueOf_eq_string_iff.mp (by rfl)
  have htoken : IsVerbatim "a1.b2=" := valueOf_eq_string_iff.mp (by rfl)
  have hlang : Environment.IsForeign ([("LANG", "C")] ++ []) := by
    simp only [Environment.IsForeign, List.append_nil, List.forall_mem_singleton]
    decide
  have hnone : Environment.IsForeign ([] ++ []) := by simp [Environment.IsForeign]
  exact ⟨(environment_credential_spelt .target hload rfl hlang _).1.mp htarget,
    (environment_credential_spelt .token hload rfl hnone _).1.mp htoken⟩

/-- A token that is a number is refused. Quotes around a token are no part of it, and neither are
blanks. -/
theorem environment_token_read_as_number :
    let path : Path := ⟨[47, 99]⟩
    let fs := FileSystem.single ""
    Config.load fs [] path = .ok ⟨none, none, .warn⟩
      ∧ foldCase "PAAS_TOKEN".toList = variableStart ++ Credential.token.key.toList
      ∧ Config.load fs [("PAAS_TOKEN", "12")] path
        = .error (.unreadable (.entry "token"))
      ∧ Config.load fs [("PAAS_TOKEN", "\"12\"")] path = .ok ⟨none, some "12", .warn⟩
      ∧ Config.load fs [("PAAS_TOKEN", " t ")] path = .ok ⟨none, some "t", .warn⟩ := by
  intro path fs
  simp only [Config.load, fs, path, FileSystem.fileEntries_single]
  decide +kernel

end DeployClient.Settings
