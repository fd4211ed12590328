import DeployClient.Proofs.Endpoints

/-!
Blanks have no place at the end of an authority.

No encoding hides a blank from the reader of a host, no host holds one, and behind a number it is no
digit. So a site that is followed by a blank cannot be read.
-/

namespace DeployClient.Url

variable {cs scheme : List Char} {c : Char} {b : Bytes}

/-! ### Bytes of blanks -/

lemma lt_of_isEdge (h : isEdge c = true) : c.toNat < 128 := by
  have hc : c.toNat ≤ 0x20 := of_decide_eq_true h
  omega

/-- Edges are no part of an encoded byte. -/
lemma mem_percentDecode (h : isEdge c = true) (hc : c ∈ cs) :
    UInt8.ofNat c.toNat ∈ percentDecode cs := by
  have hsigns : c ≠ '%' ∧ hexValue? c = none :=
    forall_edges (P := fun c => c ≠ '%' ∧ hexValue? c = none) (by decide) h
  have hkept : ∀ {d : Char} {rest : List Char}, c ∈ d :: rest →
      (c ∈ rest → UInt8.ofNat c.toNat ∈ percentDecode rest) →
      UInt8.ofNat c.toNat ∈ Bytes.ofText (String.singleton d) ++ percentDecode rest := by
    intro d rest hc hrest
    rw [List.mem_append, Bytes.mem_ofText_iff (lt_of_isEdge h)]
    rcases List.mem_cons.mp hc with rfl | hc
    · exact .inl (by simp)
    · exact .inr (hrest hc)
  fun_induction percentDecode cs with
  | case1 => simp at hc
  | case2 x y rest m n hn hm ihall ih =>
    have hx : c ≠ x := by
      rintro rfl
      simp [hsigns.2] at hm
    have hy : c ≠ y := by
      rintro rfl
      simp [hsigns.2] at hn
    exact List.mem_cons_of_mem _ (ih (by simpa [hsigns.1, hx, hy] using hc))
  | case3 x y rest hnone kept ih => exact hkept hc ih
  | case4 d rest hne kept ih => exact hkept hc ih

/-! ### Sites -/

lemma mapM_eq_none {α β : Type} {f : α → Option β} {xs : List α} {x : α} (hx : x ∈ xs)
    (h : f x = none) : xs.mapM f = none := by
  induction xs with
  | nil => simp at hx
  | cons y xs ih =>
    rw [List.mapM_cons]
    rcases List.mem_cons.mp hx with rfl | hx
    · rw [h]
      rfl
    · rw [ih hx]
      cases f y <;> rfl

/-- No name holds an edge. -/
lemma ofBytes?_eq_none (h : isEdge c = true) (hc : UInt8.ofNat c.toNat ∈ b) :
    DomainName.ofBytes? b = none := by
  rw [DomainName.ofBytes?]
  cases hs : Bytes.toText? b with
  | none => rfl
  | some s =>
    obtain rfl := Bytes.eq_ofText_of_toText? hs
    have hrefused : DomainName.fold c = .refuse :=
      forall_edges (P := fun c => DomainName.fold c = .refuse) (by decide) h
    have hfold : DomainName.foldAll? s.toList = none := by
      have hmem := (Bytes.mem_ofText_iff (lt_of_isEdge h)).mp hc
      rw [DomainName.foldAll?, mapM_eq_none hmem (by rw [hrefused])]
      rfl
    simp only [hfold]

lemma Host.parse_error (h : isEdge c = true) (hlast : cs.getLast? = some c) :
    ∃ e, Host.parse cs = .error e := by
  have hc : c ∈ cs := List.mem_of_getLast? hlast
  have hbracket : c ≠ ']' := forall_edges (P := fun c => c ≠ ']') (by decide) h
  rw [Host.parse, if_neg (by simpa using List.ne_nil_of_mem hc)]
  split
  · rw [bracketed, hlast]
    split
    · next hclose _ => exact absurd (Option.some.inj hclose) hbracket
    · exact ⟨_, rfl⟩
  · rw [ofBytes?_eq_none h (mem_percentDecode h hc)]
    exact ⟨_, rfl⟩

/-- A number stands behind a colon. -/
lemma splitNumber_spec (inside : Bool) (cs : List Char) :
    (splitNumber inside cs).1 ++ (splitNumber inside cs).2 = cs
      ∧ ((splitNumber inside cs).2 = [] ∨ ∃ digits, (splitNumber inside cs).2 = ':' :: digits) := by
  induction cs generalizing inside with
  | nil => exact ⟨rfl, .inl rfl⟩
  | cons d rest ih =>
    rw [splitNumber]
    split
    · next hd => exact ⟨rfl, .inr ⟨rest, by rw [hd.1]⟩⟩
    · obtain ⟨hwhole, hnumber⟩ := ih (if d = '[' then true else if d = ']' then false else inside)
      exact ⟨congrArg _ hwhole, hnumber⟩

lemma readNumber_error (h : isEdge c = true) (hc : c ∈ cs) (usual : Option ℕ) :
    readNumber usual (':' :: cs) = .error .invalidPortNumber := by
  have hdigit : isDigit c = false := forall_edges (P := fun c => isDigit c = false) (by decide) h
  have hall : cs.all isDigit = false := List.all_eq_false.mpr ⟨c, hc, by simp [hdigit]⟩
  rw [readNumber, hall]

lemma getLast?_place (h : c ≠ '@') (hlast : cs.getLast? = some c) :
    ((splitUserinfo? cs).getD ([], cs)).2.getLast? = some c := by
  obtain ⟨front, rfl⟩ := List.getLast?_eq_some_iff.mp hlast
  rw [splitUserinfo?]
  split
  · exact hlast
  · simp [h]

/-- **An authority with an edge at its end is none.** -/
lemma exists_site_error (scheme : List Char) (h : isEdge c = true)
    (hlast : cs.getLast? = some c) : ∃ e, site scheme cs = .error e := by
  have hsigns : c ≠ '@' ∧ c ≠ ':' :=
    forall_edges (P := fun c => c ≠ '@' ∧ c ≠ ':') (by decide) h
  have hplace := getLast?_place hsigns.1 hlast
  rw [site]
  generalize (splitUserinfo? cs).getD ([], cs) = parts at hplace ⊢
  obtain ⟨user, place⟩ := parts
  obtain ⟨hwhole, hnumber⟩ := splitNumber_spec false place
  dsimp only at hplace ⊢
  generalize splitNumber false place = numbered at hwhole hnumber ⊢
  obtain ⟨name, number⟩ := numbered
  dsimp only at hwhole hnumber ⊢
  rcases hnumber with rfl | ⟨digits, rfl⟩
  · rw [List.append_nil] at hwhole
    obtain ⟨e, he⟩ := Host.parse_error h (hwhole ▸ hplace)
    rw [he]
    exact ⟨e, rfl⟩
  · have hdigits : c ∈ digits := by
      rw [← hwhole, List.getLast?_append_of_ne_nil _ (List.cons_ne_nil _ _)] at hplace
      exact (List.mem_cons.mp (List.mem_of_getLast? hplace)).resolve_left hsigns.2
    rw [readNumber_error h hdigits]
    cases Host.parse name <;> exact ⟨_, rfl⟩

end DeployClient.Url
