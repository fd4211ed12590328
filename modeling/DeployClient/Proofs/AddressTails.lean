import DeployClient.Url.Parser
import Mathlib.Data.List.TakeWhile

/-!
Addresses that begin in the same way.

User, host and number are read off the beginning of an address. What is put behind it after a slash
ends up in its path, its query and its fragment, and the segments that the beginning has are
followed first.
-/

namespace DeployClient.Url

variable {done own front segments : List (List Char)} {segment last : List Char}
  {cs rest scheme : List Char} {t : String} {u : Url} {n : ℕ}

/-! ### Following segments -/

/-- Where a segment leads if others follow. -/
def turn (done : List (List Char)) (segment : List Char) : List (List Char) :=
  if isParent segment then done.dropLast
  else if isCurrent segment then done
  else done ++ [percentEncode inPath segment]

/-- One dot or two of them. -/
def isDots (segment : List Char) : Bool := isParent segment || isCurrent segment

lemma turn_of_not_isDots (h : isDots segment = false) :
    turn done segment = done ++ [percentEncode inPath segment] := by
  obtain ⟨hparent, hcurrent⟩ := Bool.or_eq_false_iff.mp h
  rw [turn, if_neg (by simp [hparent]), if_neg (by simp [hcurrent])]

lemma followPath_cons (h : segments ≠ []) :
    followPath done (segment :: segments) = followPath (turn done segment) segments := by
  rw [followPath.eq_3 _ _ _ h, turn]
  split
  · rfl
  · split <;> rfl

/-- Dots at the end leave an empty name. -/
lemma followPath_concat (done : List (List Char)) (front : List (List Char)) (last : List Char) :
    followPath done (front ++ [last])
      = (front ++ [last]).foldl turn done ++ if isDots last then [[]] else [] := by
  induction front generalizing done with
  | nil =>
    rw [List.nil_append, List.foldl_cons, List.foldl_nil, followPath, turn, isDots]
    cases isParent last <;> cases isCurrent last <;> simp
  | cons segment front ih =>
    rw [List.cons_append, followPath_cons (by simp), ih, List.foldl_cons]

/-- Segments that are followed from so many places down lead nowhere above. -/
def stays : ℕ → List (List Char) → Bool
  | _, [] => true
  | n, segment :: segments =>
    if isParent segment then decide (0 < n) && stays (n - 1) segments
    else if isCurrent segment then stays n segments
    else stays (n + 1) segments

/-- The places above stay as they are. -/
lemma foldl_turn_append (h : stays done.length segments = true) :
    segments.foldl turn (own ++ done) = own ++ segments.foldl turn done := by
  induction segments generalizing done with
  | nil => rfl
  | cons segment segments ih =>
    rw [stays] at h
    rw [List.foldl_cons, List.foldl_cons]
    by_cases hparent : isParent segment = true
    · rw [if_pos hparent, Bool.and_eq_true, decide_eq_true_eq, ← List.length_dropLast] at h
      have hdone : done ≠ [] := List.ne_nil_of_length_pos h.1
      rw [turn, turn, if_pos hparent, if_pos hparent, List.dropLast_append_of_ne_nil hdone, ih h.2]
    · rw [if_neg hparent] at h
      by_cases hcurrent : isCurrent segment = true
      · rw [if_pos hcurrent] at h
        rw [turn, turn, if_neg hparent, if_neg hparent, if_pos hcurrent, if_pos hcurrent, ih h]
      · rw [if_neg hcurrent] at h
        rw [turn, turn, if_neg hparent, if_neg hparent, if_neg hcurrent, if_neg hcurrent,
          List.append_assoc, ih (by simpa using h)]

/-! ### Blanks and breaks -/

def withoutBreaks (cs : List Char) : List Char := cs.filter fun c => !isBreak c

/-- What is left of the beginning of an address. -/
def lead (cs : List Char) : List Char := withoutBreaks (cs.dropWhile isEdge)

/-- What is left of the end of an address. -/
def remains (cs : List Char) : List Char :=
  withoutBreaks (cs.reverse.dropWhile isEdge).reverse

lemma isEdge_of_isBreak {c : Char} (h : isBreak c = true) : isEdge c = true := by
  simp only [isBreak, Bool.or_eq_true, decide_eq_true_eq] at h
  rcases h with (rfl | rfl) | rfl <;> decide

lemma endsPath_of_isEdge {c : Char} (h : isEdge c = true) : endsPath c = false := by
  by_contra hends
  simp only [endsPath, Bool.not_eq_false, Bool.or_eq_true, decide_eq_true_eq] at hends
  rcases hends with rfl | rfl <;> simp [isEdge] at h

lemma not_endsPath (h : ∀ c ∈ cs, endsPath c = false) : ∀ c ∈ cs, (!endsPath c) = true := by
  intro c hc
  rw [h c hc, Bool.not_false]

lemma withoutBreaks_append (l r : List Char) :
    withoutBreaks (l ++ r) = withoutBreaks l ++ withoutBreaks r := List.filter_append ..

lemma dropWhile_append_cons {p : Char → Bool} {c : Char} (h : p c = false) (l r : List Char) :
    (l ++ c :: r).dropWhile p = l.dropWhile p ++ c :: r := by
  rw [List.dropWhile_append]
  split
  · next hl =>
    rw [List.isEmpty_iff.mp hl, List.dropWhile_cons_of_neg (by simp [h]), List.nil_append]
  · rfl

lemma takeWhile_append_cons {p : Char → Bool} {c : Char} (h : p c = false) (l r : List Char) :
    (l ++ c :: r).takeWhile p = l.takeWhile p := by
  rw [List.takeWhile_append]
  split
  · next hl =>
    rw [List.takeWhile_cons_of_neg (by simp [h]), List.append_nil]
    exact ((List.takeWhile_sublist p).eq_of_length hl).symm
  · rfl

lemma remains_append_slash (l r : List Char) :
    remains (l ++ '/' :: r) = withoutBreaks l ++ '/' :: remains r := by
  have hreverse : (l ++ '/' :: r).reverse = r.reverse ++ '/' :: l.reverse := by simp
  rw [remains, hreverse, dropWhile_append_cons (by decide)]
  simp only [List.reverse_append, List.reverse_cons, List.reverse_reverse, List.append_assoc,
    List.singleton_append, withoutBreaks_append]
  rfl

lemma clean_append_slash (l r : List Char) :
    clean (l ++ '/' :: r) = lead l ++ '/' :: remains r := by
  show remains ((l ++ '/' :: r).dropWhile isEdge) = _
  rw [dropWhile_append_cons (by decide), remains_append_slash]
  rfl

lemma withoutBreaks_eq_self (h : ∀ c ∈ cs, isEdge c = false) : withoutBreaks cs = cs := by
  rw [withoutBreaks, List.filter_eq_self]
  intro c hc
  cases hbreak : isBreak c with
  | false => rfl
  | true => exact absurd (isEdge_of_isBreak hbreak) (by simp [h c hc])

lemma remains_eq_self (h : ∀ c ∈ cs, isEdge c = false) : remains cs = cs := by
  have hedges : cs.reverse.dropWhile isEdge = cs.reverse := by
    cases hcs : cs.reverse with
    | nil => rfl
    | cons c rest =>
      have hc : c ∈ cs := List.mem_reverse.mp (hcs ▸ List.mem_cons_self)
      exact List.dropWhile_cons_of_neg (by simp [h c hc])
  rw [remains, hedges, List.reverse_reverse, withoutBreaks_eq_self h]

/-- What the end of a text loses are edges. -/
lemma exists_remains_append (cs : List Char) : ∃ w, (∀ c ∈ w, isEdge c = true ∧ isBreak c = false)
    ∧ withoutBreaks cs = remains cs ++ w := by
  refine ⟨withoutBreaks (cs.reverse.takeWhile isEdge).reverse, fun c hc => ?_, ?_⟩
  · obtain ⟨hmem, hbreak⟩ := List.mem_filter.mp hc
    exact ⟨List.mem_takeWhile_imp (List.mem_reverse.mp hmem), by simpa using hbreak⟩
  · rw [remains, ← withoutBreaks_append, ← List.reverse_append, List.takeWhile_append_dropWhile,
      List.reverse_reverse]

/-- An address loses the blanks at its end. -/
lemma exists_clean_append (cs : List Char) : ∃ lost, (∀ c ∈ lost, isEdge c = true)
    ∧ clean cs ++ lost = lead cs := by
  obtain ⟨lost, hlost, hlead⟩ := exists_remains_append (cs.dropWhile isEdge)
  exact ⟨lost, fun c hc => (hlost c hc).1, hlead.symm⟩

lemma lead_append_slashes (cs : List Char) (n : ℕ) :
    lead (cs ++ List.replicate n '/') = lead cs ++ List.replicate n '/' := by
  cases n with
  | zero => simp
  | succ n =>
    have hslashes : ∀ c ∈ List.replicate (n + 1) '/', isEdge c = false := by
      intro c hc
      rw [List.eq_of_mem_replicate hc]
      decide
    rw [List.replicate_succ] at hslashes ⊢
    rw [lead, lead, dropWhile_append_cons (by decide), withoutBreaks_append,
      withoutBreaks_eq_self hslashes]

/-! ### Schemes -/

lemma splitScheme?_eq_some_iff : splitScheme? cs = some (scheme, rest) ↔
    ∃ c name, cs = c :: name ++ ':' :: rest ∧ isLetter c = true
      ∧ (∀ d ∈ c :: name, inScheme d = true) ∧ scheme = (c :: name).map lower := by
  constructor
  · intro h
    unfold splitScheme? at h
    split at h
    · next c name rest' hname hrest =>
      split at h
      · next hletter =>
        obtain ⟨rfl, rfl⟩ := Prod.mk.inj (Option.some.inj h)
        refine ⟨c, name, ?_, hletter, fun d hd => ?_, rfl⟩
        · rw [← hname, ← hrest, List.takeWhile_append_dropWhile]
        · exact List.mem_takeWhile_imp (hname ▸ hd)
      · simp at h
    · simp at h
  · rintro ⟨c, name, rfl, hletter, hname, rfl⟩
    have htake : (c :: name ++ ':' :: rest).takeWhile inScheme = c :: name := by
      rw [takeWhile_append_cons (by decide), List.takeWhile_eq_self_iff.mpr hname]
    have hdrop : (c :: name ++ ':' :: rest).dropWhile inScheme = ':' :: rest := by
      rw [dropWhile_append_cons (by decide), List.dropWhile_eq_nil_iff.mpr hname, List.nil_append]
    simp only [splitScheme?, htake, hdrop, hletter, if_true]

/-! ### Sites -/

/-- User, host and number, as they are read off an authority. -/
def site (scheme authority : List Char) : Except ParseError Url := do
  let (user, place) := (splitUserinfo? authority).getD ([], authority)
  let (username, password) := readUserinfo user
  let (name, number) := splitNumber false place
  let host ← Host.parse name
  let portNumber ← readNumber (usualPortNumber? scheme) number
  return { scheme, username, password, host, portNumber, path := [], query := none,
           fragment := none }

lemma site_nil (scheme : List Char) : site scheme [] = .error .emptyHost := rfl

/-- The authority of an address, of which this is what follows the scheme. -/
def authorityOf (rest : List Char) : List Char :=
  (rest.dropWhile isSlash).takeWhile fun c => !endsAuthority c

def afterAuthority (rest : List Char) : List Char :=
  (rest.dropWhile isSlash).dropWhile fun c => !endsAuthority c

/-- The segments that come before what is put behind a slash. -/
def ownSegments (rest : List Char) : List (List Char) :=
  if afterAuthority rest = [] then [] else ((afterAuthority rest).drop 1).splitOnP isSlash

/-- The address of a site with segments, and with what a text says after them. -/
def continued (u : Url) (segments : List (List Char)) (rest : List Char) : Url :=
  { u with
    path := followPath [] (segments ++ (rest.takeWhile fun c => !endsPath c).splitOnP isSlash)
    query := readQuery (rest.dropWhile fun c => !endsPath c)
    fragment := readFragment (rest.dropWhile fun c => !endsPath c) }

lemma readWeb_eq (scheme cs : List Char) : readWeb scheme cs
    = (site scheme (authorityOf cs)).map fun u =>
      { u with
        path := readPath ((afterAuthority cs).takeWhile fun c => !endsPath c)
        query := readQuery ((afterAuthority cs).dropWhile fun c => !endsPath c)
        fragment := readFragment ((afterAuthority cs).dropWhile fun c => !endsPath c) } := by
  simp only [readWeb, site, authorityOf, afterAuthority]
  generalize (splitUserinfo? _).getD _ = parts
  rcases parts with ⟨user, place⟩
  rcases readUserinfo user with ⟨username, password⟩
  rcases splitNumber false place with ⟨name, number⟩
  cases Host.parse name with
  | error e => rfl
  | ok host =>
    cases readNumber (usualPortNumber? scheme) number with
    | error e => rfl
    | ok portNumber => rfl

lemma exists_of_map_eq_ok {ε α β : Type} {f : α → β} {r : Except ε α} {b : β}
    (h : r.map f = .ok b) : ∃ a, r = .ok a ∧ f a = b := by
  cases r with
  | error e => cases h
  | ok a => exact ⟨a, rfl, Except.ok.inj h⟩

/-- Text that is neither a query nor a fragment has no sign that begins one. -/
lemma endsPath_eq_false {c : Char} (hquery : readQuery (cs.dropWhile fun c => !endsPath c) = none)
    (hfragment : readFragment (cs.dropWhile fun c => !endsPath c) = none) (hc : c ∈ cs) :
    endsPath c = false := by
  by_contra hends
  cases hrest : cs.dropWhile fun c => !endsPath c with
  | nil =>
    have hall := List.dropWhile_eq_nil_iff.mp hrest c hc
    simp [hends] at hall
  | cons d rest =>
    have hd := List.head?_dropWhile_not (fun c => !endsPath c) cs
    rw [hrest] at hd hquery hfragment
    have hd : endsPath d = true := by simpa using hd
    simp only [endsPath, Bool.or_eq_true, decide_eq_true_eq] at hd
    rcases hd with rfl | rfl
    · simp [readQuery] at hquery
    · simp [readFragment] at hfragment

/-- An address has an authority. -/
lemma dropWhile_ne_nil_of_readWeb (h : readWeb scheme cs = .ok u) :
    cs.dropWhile isSlash ≠ [] := by
  intro hnil
  rw [readWeb_eq] at h
  obtain ⟨v, hv, -⟩ := exists_of_map_eq_ok h
  rw [authorityOf, hnil, List.takeWhile_nil, site_nil] at hv
  cases hv

/-- An address without a query and a fragment has no sign that begins one. -/
lemma plain_of_readWeb (h : readWeb scheme cs = .ok u) (hquery : u.query = none)
    (hfragment : u.fragment = none) : ∀ c ∈ cs, endsPath c = false := by
  rw [readWeb_eq] at h
  obtain ⟨v, -, rfl⟩ := exists_of_map_eq_ok h
  intro c hc
  rw [← List.takeWhile_append_dropWhile (p := isSlash) (l := cs)] at hc
  rcases List.mem_append.mp hc with hc | hc
  · have hslash := List.mem_takeWhile_imp hc
    simp only [isSlash, Bool.or_eq_true, decide_eq_true_eq] at hslash
    rcases hslash with rfl | rfl <;> rfl
  · rw [← List.takeWhile_append_dropWhile (p := fun c => !endsAuthority c)
      (l := cs.dropWhile isSlash)] at hc
    rcases List.mem_append.mp hc with hc | hc
    · have hauthority := List.mem_takeWhile_imp hc
      simp only [endsAuthority, Bool.not_or, Bool.and_eq_true, Bool.not_eq_true'] at hauthority
      exact hauthority.2
    · exact endsPath_eq_false hquery hfragment hc

lemma readWeb_of_parse (h : Url.parse t = .ok (.web u)) : ∃ scheme rest,
    splitScheme? (clean t.toList) = some (scheme, rest)
      ∧ (usualPortNumber? scheme).isSome = true ∧ readWeb scheme rest = .ok u := by
  unfold Url.parse at h
  split at h
  · simp at h
  · next scheme rest hsplit =>
    by_cases husual : (usualPortNumber? scheme).isSome = true
    · rw [if_pos husual] at h
      obtain ⟨v, hread, hv⟩ := exists_of_map_eq_ok h
      obtain rfl := Reference.web.inj hv
      exact ⟨scheme, rest, hsplit, husual, hread⟩
    · rw [if_neg husual] at h
      dsimp only at h
      generalize (if scheme = "file".toList then checkFile rest else checkForeign rest) = check at h
      cases check <;> simp [Except.map] at h

/-- An address as the beginning of others. After its scheme it has `whole`, and they have `rest`:
that is the same without the slashes at the end, but blanks that are lost at the end of an address
are not lost there. -/
structure Opening (cs : List Char) (n : ℕ) (u : Url) (scheme whole rest lost : List Char) :
    Prop where
  split : ∀ tail, splitScheme? (lead cs ++ tail) = some (scheme, rest ++ tail)
  usual : (usualPortNumber? scheme).isSome = true
  read : readWeb scheme whole = .ok u
  same : whole ++ lost = rest ++ List.replicate n '/'
  blank : ∀ c ∈ lost, isEdge c = true
  loses : clean (cs ++ List.replicate n '/') ++ lost = lead (cs ++ List.replicate n '/')

lemma exists_opening (ht : Url.parse t = .ok (.web u))
    (hcs : t.toList = cs ++ List.replicate n '/') :
    ∃ scheme whole rest lost, Opening cs n u scheme whole rest lost := by
  obtain ⟨scheme, whole, hsplit, husual, hweb⟩ := readWeb_of_parse ht
  obtain ⟨c, name, hclean, hletter, hname, rfl⟩ := splitScheme?_eq_some_iff.mp hsplit
  obtain ⟨lost, hlost, hlead⟩ := exists_clean_append t.toList
  have hbegin : c :: name ++ ':' :: (whole ++ lost) = lead cs ++ List.replicate n '/' := by
    rw [← lead_append_slashes, ← hcs, ← hlead, hclean]
    simp
  -- the colon is no slash, so it is in what leads
  obtain ⟨rest, hlead', hrest⟩ : ∃ rest, lead cs = c :: name ++ ':' :: rest
      ∧ whole ++ lost = rest ++ List.replicate n '/' := by
    rcases List.append_eq_append_iff.mp hbegin with ⟨r, hr, hr'⟩ | ⟨r, hr, hr'⟩
    · cases r with
      | nil =>
        rw [List.nil_append] at hr'
        have hcolon : ':' ∈ List.replicate n '/' := hr' ▸ List.mem_cons_self
        exact absurd (List.eq_of_mem_replicate hcolon) (by decide)
      | cons d r =>
        obtain ⟨rfl, hrest⟩ := List.cons.inj hr'
        exact ⟨r, hr, hrest⟩
    · have hcolon : ':' ∈ List.replicate n '/' := by
        rw [hr']
        simp
      exact absurd (List.eq_of_mem_replicate hcolon) (by decide)
  refine ⟨_, whole, rest, lost, fun tail => ?_, husual, hweb, hrest, hlost, hcs ▸ hlead⟩
  rw [hlead']
  exact splitScheme?_eq_some_iff.mpr ⟨c, name, by simp, hletter, hname, rfl⟩

namespace Opening

variable {whole lost : List Char}

/-- What others have after a slash is read behind what they have in common. -/
lemma parse_append (h : Opening cs n u scheme whole rest lost) (tail : List Char) :
    Url.parse (String.ofList (cs ++ '/' :: tail))
      = (readWeb scheme (rest ++ '/' :: remains tail)).map .web := by
  rw [Url.parse, String.toList_ofList, clean_append_slash, h.split]
  simp only [h.usual, if_true]

/-- They have an authority too. -/
lemma dropWhile_ne_nil (h : Opening cs n u scheme whole rest lost) :
    rest.dropWhile isSlash ≠ [] := by
  intro hnil
  refine dropWhile_ne_nil_of_readWeb h.read ?_
  rw [List.dropWhile_eq_nil_iff] at hnil ⊢
  intro d hd
  have hmem : d ∈ rest ++ List.replicate n '/' := h.same ▸ List.mem_append_left lost hd
  refine (List.mem_append.mp hmem).elim (hnil d) fun hmem => ?_
  rw [List.eq_of_mem_replicate hmem]
  decide

lemma plain (h : Opening cs n u scheme whole rest lost) (hwhole : ∀ c ∈ whole, endsPath c = false) :
    ∀ c ∈ rest, endsPath c = false := by
  intro c hc
  have hmem : c ∈ whole ++ lost := h.same ▸ List.mem_append_left _ hc
  exact (List.mem_append.mp hmem).elim (hwhole c) fun hmem => endsPath_of_isEdge (h.blank c hmem)

end Opening

/-- What is read of a site and of a tail. -/
lemma readWeb_append (scheme : List Char) (hsite : rest.dropWhile isSlash ≠ [])
    (hplain : ∀ c ∈ rest, endsPath c = false) (tail : List Char) :
    readWeb scheme (rest ++ '/' :: tail)
      = (site scheme (authorityOf rest)).map fun v => v.continued (ownSegments rest) tail := by
  have hownPlain : ∀ c ∈ afterAuthority rest, (!endsPath c) = true := fun c hc =>
    not_endsPath hplain c ((List.dropWhile_sublist _).subset ((List.dropWhile_sublist _).subset hc))
  have hskip : (rest ++ '/' :: tail).dropWhile isSlash = rest.dropWhile isSlash ++ '/' :: tail := by
    rw [List.dropWhile_append, if_neg fun h => hsite (List.isEmpty_iff.mp h)]
  have hauthority : authorityOf (rest ++ '/' :: tail) = authorityOf rest := by
    rw [authorityOf, hskip, takeWhile_append_cons (by decide), authorityOf]
  have hafter : afterAuthority (rest ++ '/' :: tail) = afterAuthority rest ++ '/' :: tail := by
    rw [afterAuthority, hskip, dropWhile_append_cons (by decide), afterAuthority]
  have htake : (afterAuthority rest ++ '/' :: tail).takeWhile (fun c => !endsPath c)
      = afterAuthority rest ++ '/' :: tail.takeWhile fun c => !endsPath c := by
    rw [List.takeWhile_append_of_pos hownPlain, List.takeWhile_cons_of_pos (by decide)]
  have hdrop : (afterAuthority rest ++ '/' :: tail).dropWhile (fun c => !endsPath c)
      = tail.dropWhile fun c => !endsPath c := by
    rw [List.dropWhile_append_of_pos hownPlain, List.dropWhile_cons_of_pos (by decide)]
  have hpath : ∀ r, readPath (afterAuthority rest ++ '/' :: r)
      = followPath [] (ownSegments rest ++ r.splitOnP isSlash) := by
    intro r
    rw [ownSegments]
    cases afterAuthority rest with
    | nil => rfl
    | cons c own =>
      rw [readPath, if_neg (by simp)]
      exact congrArg _ (List.splitOnP_append_cons _ _ rfl)
  rw [readWeb_eq, hauthority, hafter]
  simp only [htake, hdrop, hpath]
  rfl

/-- **What follows a slash behind the beginning of an address** is read on its own, after the
segments that the beginning has. -/
theorem exists_parse_append (ht : Url.parse t = .ok (.web u)) (hquery : u.query = none)
    (hfragment : u.fragment = none) (hcs : t.toList = cs ++ List.replicate n '/') :
    ∃ (base : Except ParseError Url) (segments : List (List Char)), ∀ tail : List Char,
      Url.parse (String.ofList (cs ++ '/' :: tail))
        = base.map fun v => .web (v.continued segments (remains tail)) := by
  obtain ⟨scheme, whole, rest, lost, hopening⟩ := exists_opening ht hcs
  refine ⟨site scheme (authorityOf rest), ownSegments rest, fun tail => ?_⟩
  have hplain := hopening.plain (plain_of_readWeb hopening.read hquery hfragment)
  rw [hopening.parse_append, readWeb_append scheme hopening.dropWhile_ne_nil hplain]
  cases site scheme (authorityOf rest) <;> rfl

end DeployClient.Url
