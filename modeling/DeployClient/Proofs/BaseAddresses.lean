import DeployClient.Proofs.ConfigurationFile
import DeployClient.Proofs.HostEdges

/-!
Targets that addresses can be built on.

A login checks the address that its target is read as, and stores the target as it is written; the
paths of endpoints are put behind that text. So what the text ends with decides whether they are
read as paths of the same place: after a query or a fragment they are part of it, blanks that the
target may lose at its end are not lost before them, and a path whose last name is empty keeps a
slash too many.
-/

namespace DeployClient.Url

open Settings (Config)
open Upload (applicationPath)

variable {done path segments : List (List Char)}
  {cs rest name tail scheme segment lost : List Char} {c : Char} {u v : Url} {t : String}

/-! ### Names -/

/-- A letter, a digit or a hyphen. -/
def inName (c : Char) : Bool := isLetter c || isDigit c || c = '-'

lemma toNat_lt_of_inName (h : inName c = true) : c.toNat < 0x80 := by
  have hle : ∀ x y : Char, (x ≤ y) = (x.toNat ≤ y.toNat) := fun _ _ => rfl
  simp only [inName, isLetter, isDigit, lower, hle, Bool.or_eq_true, Bool.and_eq_true,
    decide_eq_true_eq] at h
  rcases h with (⟨hfirst, hlast⟩ | ⟨-, hlast⟩) | rfl
  · split at hlast
    · next hupper => exact Nat.lt_of_le_of_lt hupper.2 (by decide)
    · exact Nat.lt_of_le_of_lt hlast (by decide)
  · exact Nat.lt_of_le_of_lt hlast (by decide)
  · decide

lemma forall_inName {P : Char → Prop}
    (h : ∀ n < 0x80, inName (Char.ofNat n) = true → P (Char.ofNat n)) (hc : inName c = true) :
    P c := by
  have hn := h c.toNat (toNat_lt_of_inName hc)
  rw [Char.ofNat_toNat] at hn
  exact hn hc

lemma isWord_of_inName (h : ∀ c ∈ name, inName c = true) : IsWord name where
  edges c hc := forall_inName (P := fun c => isEdge c = false) (by decide +kernel) (h c hc)
  plain c hc := forall_inName (P := fun c => endsPath c = false) (by decide +kernel) (h c hc)
  single := List.splitOnP_eq_singleton fun c hc =>
    forall_inName (P := fun c => isSlash c = false) (by decide +kernel) (h c hc)
  undotted := by
    cases name with
    | nil => rfl
    | cons c rest =>
      have hc : c ≠ '%' ∧ c ≠ '.' := forall_inName (P := fun c => c ≠ '%' ∧ c ≠ '.')
        (by decide +kernel) (h c List.mem_cons_self)
      have hdots : decodeDots (c :: rest) = c :: rest := by
        rw [decodeDots] <;> simp [hc]
      rw [isDots, isParent, isCurrent, hdots]
      simp [hc.2]
  encoded := by
    have hchars : ∀ c ∈ name, encodeChar inPath c = [c] := fun c hc =>
      forall_inName (P := fun c => encodeChar inPath c = [c]) (by decide +kernel) (h c hc)
    rw [percentEncode, List.flatMap_congr hchars, List.flatMap_singleton']

/-! ### Paths as text -/

lemma slash_notMem_percentEncode (h : '/' ∉ cs) : '/' ∉ percentEncode inPath cs := by
  have hdigit : ∀ n < 16, upperDigit n ≠ '/' := by decide
  intro hslash
  obtain ⟨d, hd, hslash⟩ := List.mem_flatMap.mp hslash
  rw [encodeChar] at hslash
  split at hslash
  · exact h (List.mem_singleton.mp hslash ▸ hd)
  · obtain ⟨b, -, hb⟩ := List.mem_flatMap.mp hslash
    have hlow := hdigit (b.toNat % 16) (Nat.mod_lt _ (by decide))
    have hhigh := hdigit (b.toNat / 16) (by have := b.toNat_lt; omega)
    simp [encodeByte, hlow.symm, hhigh.symm] at hb

lemma slash_notMem_of_mem_foldl_turn (hdone : ∀ x ∈ done, '/' ∉ x)
    (hsegments : ∀ x ∈ segments, '/' ∉ x) : ∀ x ∈ segments.foldl turn done, '/' ∉ x := by
  induction segments generalizing done with
  | nil => exact hdone
  | cons segment segments ih =>
    obtain ⟨hsegment, hsegments⟩ := List.forall_mem_cons.mp hsegments
    refine ih (fun x hx => ?_) hsegments
    rw [turn] at hx
    split at hx
    · exact hdone x (List.dropLast_subset _ hx)
    · split at hx
      · exact hdone x hx
      · rcases List.mem_append.mp hx with hx | hx
        · exact hdone x hx
        · exact List.mem_singleton.mp hx ▸ slash_notMem_percentEncode hsegment

lemma slash_notMem_ownSegments : ∀ x ∈ ownSegments rest, '/' ∉ x := by
  intro x hx hslash
  rw [ownSegments] at hx
  split at hx
  · simp at hx
  · exact absurd (Path.not_of_mem_splitOnP hx '/' hslash) (by decide)

/-- The text of a path ends with a slash if the last name is empty. -/
lemma getLast?_pathText (h : ∀ x ∈ path, '/' ∉ x) :
    (path.flatMap ('/' :: ·)).getLast? = some '/' ↔ path.getLast? = some [] := by
  rcases List.eq_nil_or_concat path with rfl | ⟨front, last, rfl⟩
  · simp
  · rw [List.concat_eq_append] at h ⊢
    have hlast : '/' ∉ last := h last (by simp)
    rw [List.flatMap_append, List.flatMap_singleton, List.getLast?_concat,
      List.getLast?_append_of_ne_nil _ (List.cons_ne_nil _ _), Option.some.injEq]
    constructor
    · intro hslash
      cases last with
      | nil => rfl
      | cons c last =>
        rw [List.getLast?_cons_cons] at hslash
        exact absurd (List.mem_of_getLast? hslash) hlast
    · rintro rfl
      rfl

lemma flatMap_replicate_nil (k : ℕ) :
    (List.replicate k ([] : List Char)).flatMap ('/' :: ·) = List.replicate k '/' := by
  induction k with
  | zero => rfl
  | succ k ih => rw [List.replicate_succ, List.flatMap_cons, ih, List.replicate_succ]; rfl

/-- A text is what is left of it without slashes at the end, unless it ends with one. -/
lemma trimSlashes_append_iff (cs : List Char) (k : ℕ) :
    (Config.trimSlashes (String.ofList (cs ++ List.replicate k '/'))).toList = cs
      ↔ cs.getLast? ≠ some '/' := by
  constructor
  · intro h
    obtain ⟨-, -, hlast⟩ := Settings.exists_trimSlashes (String.ofList (cs ++ List.replicate k '/'))
    rwa [h] at hlast
  · intro hlast
    rw [Config.trimSlashes, String.toList_ofList, String.toList_ofList, List.reverse_append,
      List.reverse_replicate, List.dropWhile_append_of_pos (by simp)]
    cases hcs : cs.reverse with
    | nil => simpa using hcs.symm
    | cons c front =>
      have hc : c ≠ '/' := by
        rintro rfl
        rw [List.getLast?_eq_head?_reverse, hcs] at hlast
        exact hlast rfl
      rw [List.dropWhile_cons_of_neg (by simpa using hc), ← hcs, List.reverse_reverse]

/-! ### Reading what is built -/

lemma readWeb_of_plain (scheme : List Char) (hplain : ∀ c ∈ cs, endsPath c = false) :
    readWeb scheme cs = (site scheme (authorityOf cs)).map fun v =>
      { v with path := readPath (afterAuthority cs), query := none, fragment := none } := by
  have hown : ∀ c ∈ afterAuthority cs, (!endsPath c) = true := fun c hc =>
    not_endsPath hplain c ((List.dropWhile_sublist _).subset ((List.dropWhile_sublist _).subset hc))
  rw [readWeb_eq, List.takeWhile_eq_self_iff.mpr hown, List.dropWhile_eq_nil_iff.mpr hown]
  rfl

lemma pathText_of_plain (hplain : ∀ c ∈ cs, endsPath c = false)
    (hu : readWeb scheme cs = .ok u) :
    u.pathText = (readPath (afterAuthority cs)).flatMap ('/' :: ·) := by
  rw [readWeb_of_plain scheme hplain] at hu
  obtain ⟨v, -, rfl⟩ := exists_of_map_eq_ok hu
  rfl

lemma readPath_afterAuthority (cs : List Char) : ∃ k,
    readPath (afterAuthority cs) = (ownSegments cs).foldl turn [] ++ List.replicate k [] := by
  rw [ownSegments, readPath]
  split
  · next hnone => exact ⟨1, by rw [hnone]; rfl⟩
  · obtain ⟨front, last, hsplit⟩ := (List.eq_nil_or_concat _).resolve_left
      (List.splitOnP_ne_nil isSlash ((afterAuthority cs).drop 1))
    rw [hsplit, List.concat_eq_append, followPath_concat]
    cases isDots last with
    | true => exact ⟨1, rfl⟩
    | false => exact ⟨0, rfl⟩

lemma splitOnP_replicate_slash (m : ℕ) :
    (List.replicate m '/').splitOnP isSlash = List.replicate (m + 1) [] := by
  induction m with
  | zero => rfl
  | succ m ih =>
    rw [List.replicate_succ, List.splitOnP_cons_eq_if_modifyHead, if_pos (by decide), ih]
    rfl

lemma followPath_replicate_nil (done : List (List Char)) (m : ℕ) :
    followPath done (List.replicate (m + 1) []) = done ++ List.replicate (m + 1) [] := by
  induction m generalizing done with
  | zero => rfl
  | succ m ih =>
    rw [List.replicate_succ, followPath_cons (by simp), ih, turn_of_not_isDots rfl]
    simp

/-- What is not in the second of two texts is in the first, and there it stands where it does in
both. -/
lemma exists_append_cons {l l' r r' : List Char} (h : l ++ r = l' ++ c :: r') (hc : c ∉ r) :
    ∃ back, l = l' ++ c :: back := by
  rcases List.append_eq_append_iff.mp h with ⟨m, -, hr⟩ | ⟨m, hl, hr⟩
  · exact absurd (by simp [hr]) hc
  · cases m with
    | nil => exact absurd ((List.nil_append r ▸ hr) ▸ List.mem_cons_self) hc
    | cons d m => exact ⟨m, by rw [hl, (List.cons.inj hr).1]⟩

/-- A sign that begins a query or a fragment hides what follows it from the path. -/
lemma path_of_endsPath {front : List Char} (hc : endsPath c = true)
    (hu : readWeb scheme (front ++ c :: cs) = .ok u)
    (hv : readWeb scheme (front ++ c :: tail) = .ok v) : v.path = u.path := by
  have hslash : isSlash c = false := by
    simp only [endsPath, Bool.or_eq_true, decide_eq_true_eq] at hc
    rcases hc with rfl | rfl <;> rfl
  have hends : (!endsAuthority c) = false := by simp [endsAuthority, hc]
  have hparts : ∀ rest, authorityOf (front ++ c :: rest) = authorityOf front
      ∧ (afterAuthority (front ++ c :: rest)).takeWhile (fun c => !endsPath c)
        = (afterAuthority front).takeWhile fun c => !endsPath c := by
    intro rest
    rw [authorityOf, afterAuthority, dropWhile_append_cons hslash, takeWhile_append_cons hends,
      dropWhile_append_cons hends, takeWhile_append_cons (by simp [hc])]
    exact ⟨rfl, rfl⟩
  rw [readWeb_eq, (hparts _).1, (hparts _).2] at hu hv
  obtain ⟨w, -, rfl⟩ := exists_of_map_eq_ok hu
  obtain ⟨w', -, rfl⟩ := exists_of_map_eq_ok hv
  rfl

/-- What stands at the end of an address stands at the end of its authority or of its path. -/
lemma append_lost (hsite : cs.dropWhile isSlash ≠ []) (hlost : ∀ c ∈ lost, isEdge c = true) :
    (afterAuthority cs = [] ∧ authorityOf (cs ++ lost) = authorityOf cs ++ lost)
      ∨ (afterAuthority cs ≠ [] ∧ afterAuthority (cs ++ lost) = afterAuthority cs ++ lost) := by
  have hskip : (cs ++ lost).dropWhile isSlash = cs.dropWhile isSlash ++ lost := by
    rw [List.dropWhile_append, if_neg fun h => hsite (List.isEmpty_iff.mp h)]
  by_cases hown : afterAuthority cs = []
  · refine .inl ⟨hown, ?_⟩
    have hends : ∀ c ∈ lost, (!endsAuthority c) = true := fun c hc =>
      forall_edges (P := fun c => (!endsAuthority c) = true) (by decide) (hlost c hc)
    have hall := List.dropWhile_eq_nil_iff.mp hown
    rw [authorityOf, authorityOf, hskip, List.takeWhile_append_of_pos hall,
      List.takeWhile_eq_self_iff.mpr hends, List.takeWhile_eq_self_iff.mpr hall]
  · refine .inr ⟨hown, ?_⟩
    rw [afterAuthority, hskip, List.dropWhile_append]
    exact if_neg fun h => hown (List.isEmpty_iff.mp h)

lemma length_turn_le (done : List (List Char)) (hdots : isDots segment = true) :
    ((turn done segment).flatMap ('/' :: ·)).length ≤ (done.flatMap ('/' :: ·)).length := by
  rw [turn]
  split
  · rcases List.eq_nil_or_concat done with rfl | ⟨front, last, rfl⟩
    · rfl
    · simp
  · next hparent =>
    rw [isDots, eq_false_of_ne_true hparent, Bool.false_or] at hdots
    rw [if_pos hdots]

/-- Following a last segment adds a slash and the segment, or less. -/
lemma length_followPath_le (done front : List (List Char)) (last : List Char) :
    ((followPath done (front ++ [last])).flatMap ('/' :: ·)).length
      ≤ ((front.foldl turn done).flatMap ('/' :: ·)).length
        + (1 + (percentEncode inPath last).length) := by
  rw [followPath_concat, List.foldl_concat, List.flatMap_append, List.length_append]
  cases hdots : isDots last with
  | true =>
    have hturn := length_turn_le (front.foldl turn done) hdots
    simp only [if_true, List.flatMap_singleton, List.length_singleton]
    omega
  | false =>
    rw [turn_of_not_isDots hdots]
    simp only [Bool.false_eq_true, if_false, List.flatMap_nil, List.flatMap_append,
      List.flatMap_singleton, List.length_append, List.length_nil, List.length_cons]
    omega

/-! ### Bases -/

/-- An address that leads on from another one by a path: to the same place, the slashes at the end
of the other path left out. -/
structure LeadsOn (u v : Url) (path : String) : Prop where
  scheme : v.scheme = u.scheme
  host : v.host = u.host
  portNumber : v.portNumber = u.portNumber
  path : v.pathText = (Config.trimSlashes (String.ofList u.pathText)).toList ++ path.toList
  fragment : v.fragment = none

/-- Where the path of an application is put behind segments. -/
lemma continued_application (v : Url) (segments : List (List Char)) {app : String}
    (happ : IsWord app.toList) :
    let w := v.continued segments ("apps".toList ++ '/' :: app.toList)
    w.pathText = (segments.foldl turn []).flatMap ('/' :: ·) ++ (applicationPath app).toList
      ∧ w.fragment = none := by
  intro w
  have happs : IsWord "apps".toList := Upload.areWords.1
  have hpath : w.path = segments.foldl turn [] ++ ["apps".toList, app.toList] := by
    have hverb := (continued_verb v segments happ happs.plain).1
    rw [happs.single, List.foldl_concat, turn_of_not_isDots happs.undotted, happs.encoded] at hverb
    rw [hverb, List.append_assoc]
    rfl
  refine ⟨?_, ?_⟩
  · rw [Url.pathText, hpath, List.flatMap_append, Upload.toList_applicationPath]
    simp
  · have hplain : ∀ c ∈ "apps".toList ++ '/' :: app.toList, (!endsPath c) = true := by
      refine not_endsPath fun c hc => ?_
      rcases List.mem_append.mp hc with hc | hc
      · exact happs.plain c hc
      · rcases List.mem_cons.mp hc with rfl | hc
        · rfl
        · exact happ.plain c hc
    show readFragment _ = none
    rw [List.dropWhile_eq_nil_iff.mpr hplain]
    rfl

namespace Opening

variable {whole : List Char} {n : ℕ} {app : String}

/-- Without queries, fragments and lost blanks, an address is the place that others lead on from,
and slashes. -/
lemma exists_base (h : Opening cs n u scheme whole rest [])
    (hplain : ∀ c ∈ rest, endsPath c = false) : ∃ v k, site scheme (authorityOf rest) = .ok v
      ∧ v.scheme = u.scheme ∧ v.host = u.host ∧ v.portNumber = u.portNumber
      ∧ u.path = (ownSegments rest).foldl turn [] ++ List.replicate k [] := by
  have hwhole : whole = rest ++ List.replicate n '/' := by simpa using h.same
  have hread := h.read
  rw [hwhole] at hread
  cases n with
  | zero =>
    rw [List.replicate_zero, List.append_nil, readWeb_of_plain scheme hplain] at hread
    obtain ⟨v, hsite, rfl⟩ := exists_of_map_eq_ok hread
    obtain ⟨k, hk⟩ := readPath_afterAuthority rest
    exact ⟨v, k, hsite, rfl, rfl, rfl, hk⟩
  | succ m =>
    rw [List.replicate_succ, readWeb_append scheme h.dropWhile_ne_nil hplain] at hread
    obtain ⟨v, hsite, rfl⟩ := exists_of_map_eq_ok hread
    refine ⟨v, m + 1, hsite, rfl, rfl, rfl, ?_⟩
    have hslashes : ∀ c ∈ List.replicate m '/', endsPath c = false := by
      intro c hc
      rw [List.eq_of_mem_replicate hc]
      rfl
    rw [(continued_of_plain v _ hslashes).1, splitOnP_replicate_slash,
      followPath_append (by simp), followPath_replicate_nil]

lemma parse_application (h : Opening cs n u scheme whole rest lost) (happ : IsWord app.toList) :
    Url.parse (String.ofList cs ++ applicationPath app)
      = (readWeb scheme (rest ++ '/' :: ("apps".toList ++ '/' :: app.toList))).map .web := by
  have htext : String.ofList cs ++ applicationPath app
      = String.ofList (cs ++ '/' :: ("apps".toList ++ '/' :: app.toList)) := by
    rw [← String.toList_inj]
    simp only [String.toList_append, String.toList_ofList, Upload.toList_applicationPath]
  rw [htext, h.parse_append, Upload.remains_verb happ,
    withoutBreaks_eq_self Upload.areWords.1.edges]

lemma readWeb_of_parse_application (h : Opening cs n u scheme whole rest lost)
    (happ : IsWord app.toList)
    (hparse : Url.parse (String.ofList cs ++ applicationPath app) = .ok (.web v)) :
    readWeb scheme (rest ++ '/' :: ("apps".toList ++ '/' :: app.toList)) = .ok v := by
  rw [h.parse_application happ] at hparse
  obtain ⟨w, hread, hw⟩ := exists_of_map_eq_ok hparse
  rwa [Reference.web.inj hw] at hread

/-- What leads on has the place of the other one as that of its own segments. -/
lemma place_of_leadsOn (h : Opening cs n u scheme whole rest lost) (happ : IsWord app.toList)
    (hplain : ∀ c ∈ rest, endsPath c = false)
    (hparse : Url.parse (String.ofList cs ++ applicationPath app) = .ok (.web v))
    (hleads : LeadsOn u v (applicationPath app)) :
    (Config.trimSlashes (String.ofList u.pathText)).toList
      = ((ownSegments rest).foldl turn []).flatMap ('/' :: ·) := by
  have hv := h.readWeb_of_parse_application happ hparse
  rw [readWeb_append scheme h.dropWhile_ne_nil hplain] at hv
  obtain ⟨w, -, rfl⟩ := exists_of_map_eq_ok hv
  obtain ⟨htext, -⟩ := continued_application w (ownSegments rest) happ
  exact List.append_cancel_right (hleads.path.symm.trans htext)

/-- A base leads on, if its path has a name last. -/
lemma exists_leadsOn_iff_of_plain (h : Opening cs n u scheme whole rest [])
    (happ : IsWord app.toList) (hplain : ∀ c ∈ rest, endsPath c = false) :
    (∃ v, Url.parse (String.ofList cs ++ applicationPath app) = .ok (.web v)
        ∧ LeadsOn u v (applicationPath app))
      ↔ ((ownSegments rest).foldl turn []).getLast? ≠ some [] := by
  obtain ⟨v, k, hsite, hscheme, hhost, hnumber, hpath⟩ := h.exists_base hplain
  set place := (ownSegments rest).foldl turn []
  set w := v.continued (ownSegments rest) ("apps".toList ++ '/' :: app.toList)
  have hparse : Url.parse (String.ofList cs ++ applicationPath app) = .ok (.web w) := by
    rw [h.parse_application happ, readWeb_append scheme h.dropWhile_ne_nil hplain, hsite]
    rfl
  obtain ⟨htext, hfragment⟩ := continued_application v (ownSegments rest) happ
  have hown : u.pathText = place.flatMap ('/' :: ·) ++ List.replicate k '/' := by
    rw [Url.pathText, hpath, List.flatMap_append, flatMap_replicate_nil]
  have hslashes : ∀ x ∈ place, '/' ∉ x :=
    slash_notMem_of_mem_foldl_turn (by simp) slash_notMem_ownSegments
  have hnamed : (Config.trimSlashes (String.ofList u.pathText)).toList = place.flatMap ('/' :: ·)
      ↔ place.getLast? ≠ some [] := by
    rw [hown, trimSlashes_append_iff, Ne, getLast?_pathText hslashes]
  rw [← hnamed]
  constructor
  · rintro ⟨w', hw, hleads⟩
    exact h.place_of_leadsOn happ hplain hw hleads
  · intro htrim
    exact ⟨w, hparse, hscheme, hhost, hnumber, by rw [htrim, htext], hfragment⟩

/-- Nothing is lost before a slash. -/
lemma eq_append_of_lost (h : Opening cs n u scheme whole rest lost) (hne : lost ≠ []) :
    rest = whole ++ lost := by
  have hsame := h.same
  cases n with
  | zero => simpa using hsame.symm
  | succ m =>
    obtain ⟨front, c, rfl⟩ := (List.eq_nil_or_concat lost).resolve_left hne
    have hlast := congrArg List.getLast? hsame
    simp only [List.concat_eq_append, List.replicate_succ', ← List.append_assoc,
      List.getLast?_concat, Option.some.injEq] at hlast
    have hslash := h.blank c (by simp)
    rw [hlast] at hslash
    simp [isEdge] at hslash

/-- A base with a blank at its end does not lead on: it has no host, or another name last. -/
lemma not_leadsOn_of_lost (h : Opening cs n u scheme whole rest lost) (happ : IsWord app.toList)
    (hplain : ∀ c ∈ rest, endsPath c = false) (hne : lost ≠ [])
    (hparse : Url.parse (String.ofList cs ++ applicationPath app) = .ok (.web v)) :
    ¬ LeadsOn u v (applicationPath app) := by
  intro hleads
  have hrest := h.eq_append_of_lost hne
  have hv := h.readWeb_of_parse_application happ hparse
  rw [readWeb_append scheme h.dropWhile_ne_nil hplain] at hv
  rcases append_lost (dropWhile_ne_nil_of_readWeb h.read) h.blank with
    ⟨-, hauthority⟩ | ⟨hown, hafter⟩
  · -- the blank is at the end of the authority
    obtain ⟨front, c, rfl⟩ := (List.eq_nil_or_concat lost).resolve_left hne
    have hlast : (authorityOf rest).getLast? = some c := by
      rw [hrest, hauthority, List.concat_eq_append, ← List.append_assoc, List.getLast?_concat]
    obtain ⟨e, he⟩ := exists_site_error scheme (h.blank c (by simp)) hlast
    rw [he] at hv
    cases hv
  · -- it is at the end of the last segment, which is longer for it
    obtain ⟨front, last, hsplit, happend⟩ :=
      exists_splitOnP_append (p := isSlash) ((afterAuthority whole).drop 1)
    have hsegments : ownSegments rest = front ++ [last ++ lost] := by
      have hslashes : ∀ c ∈ lost, isSlash c = false := fun c hc =>
        forall_edges (P := fun c => isSlash c = false) (by decide) (h.blank c hc)
      rw [hrest, ownSegments, hafter, if_neg (by simp [hown]),
        List.drop_append_of_le_length (List.length_pos_iff.mpr hown), happend lost hslashes]
    have hu : u.pathText = (followPath [] (front ++ [last])).flatMap ('/' :: ·) := by
      rw [pathText_of_plain (fun c hc => hplain c (hrest ▸ List.mem_append_left lost hc)) h.read,
        readPath, hsplit]
    have hplace := h.place_of_leadsOn happ hplain hparse hleads
    rw [hsegments, List.foldl_concat, turn_of_not_isDots (isDots_append h.blank hne)] at hplace
    obtain ⟨k, htrim, -⟩ := Settings.exists_trimSlashes (String.ofList u.pathText)
    rw [String.toList_ofList, hplace, hu] at htrim
    have hlength := congrArg List.length htrim
    have hle := length_followPath_le [] front last
    have hencoded := List.length_pos_iff.mpr (percentEncode_ne_nil h.blank hne)
    simp only [List.flatMap_append, List.flatMap_singleton, percentEncode_append,
      List.length_append, List.length_cons, List.length_replicate] at hlength
    omega

/-- A query or a fragment hides the path that is put behind it. -/
lemma not_leadsOn_of_endsPath (h : Opening cs n u scheme whole rest lost)
    (happ : IsWord app.toList) (hends : ∃ c ∈ rest, endsPath c = true)
    (hparse : Url.parse (String.ofList cs ++ applicationPath app) = .ok (.web v)) :
    ¬ LeadsOn u v (applicationPath app) := by
  intro hleads
  obtain ⟨c, hc, hends⟩ := hends
  obtain ⟨front, back, rfl⟩ := List.append_of_mem hc
  have hedge : c ∉ lost := fun hmem => by
    simp [endsPath_of_isEdge (h.blank c hmem)] at hends
  obtain ⟨back', rfl⟩ := exists_append_cons (by simpa using h.same) hedge
  have hv := h.readWeb_of_parse_application happ hparse
  rw [List.append_assoc] at hv
  have hpath : v.pathText = u.pathText := by
    rw [Url.pathText, Url.pathText, path_of_endsPath hends h.read hv]
  obtain ⟨k, htrim, -⟩ := Settings.exists_trimSlashes (String.ofList u.pathText)
  rw [String.toList_ofList] at htrim
  have hslashes := List.append_cancel_left (hleads.path.symm.trans (hpath.trans htrim))
  have hletter : 'a' ∈ List.replicate k '/' := by
    rw [← hslashes, Upload.toList_applicationPath]
    simp
  exact absurd (List.eq_of_mem_replicate hletter) (by decide)

/-- **What leads on, and what does not.** -/
theorem exists_leadsOn_iff (h : Opening cs n u scheme whole rest lost) (happ : IsWord app.toList) :
    (∃ v, Url.parse (String.ofList cs ++ applicationPath app) = .ok (.web v)
        ∧ LeadsOn u v (applicationPath app))
      ↔ (∀ c ∈ rest, endsPath c = false) ∧ lost = []
        ∧ ((ownSegments rest).foldl turn []).getLast? ≠ some [] := by
  by_cases hplain : ∀ c ∈ rest, endsPath c = false
  · by_cases hlost : lost = []
    · subst hlost
      rw [h.exists_leadsOn_iff_of_plain happ hplain]
      exact ⟨fun hnamed => ⟨hplain, rfl, hnamed⟩, fun hbase => hbase.2.2⟩
    · refine iff_of_false ?_ fun hbase => hlost hbase.2.1
      rintro ⟨v, hparse, hleads⟩
      exact h.not_leadsOn_of_lost happ hplain hlost hparse hleads
  · refine iff_of_false ?_ fun hbase => hplain hbase.1
    rintro ⟨v, hparse, hleads⟩
    exact h.not_leadsOn_of_endsPath happ (by simpa using hplain) hparse hleads

end Opening

/-! ### Targets -/

/-- The segments that an address with this beginning has before what is put behind it. -/
def leadSegments (cs : List Char) : List (List Char) :=
  match splitScheme? (lead cs) with
  | some (_, rest) => ownSegments rest
  | none => []

/-- Addresses can be built on the target: no sign in it begins a query or a fragment, it has no
blanks to lose at its end, and where it leads to without the slashes at its end, the last name is
not empty. -/
@[mk_iff]
structure IsBase (target : String) : Prop where
  plain : ∀ c ∈ target.toList, endsPath c = false
  whole : clean target.toList = lead target.toList
  named : ((leadSegments (Config.trimSlashes target).toList).foldl turn []).getLast? ≠ some []

instance (target : String) : Decidable (IsBase target) :=
  decidable_of_iff (target.toList.all (fun c => !endsPath c) = true
      ∧ clean target.toList = lead target.toList
      ∧ ((leadSegments (Config.trimSlashes target).toList).foldl turn []).getLast? ≠ some [])
    (by simp [isBase_iff])

example : IsBase "https://paas.example.com/v1//" := by decide +kernel

example : ¬ IsBase "https://paas.example.com/v1\\" := by decide +kernel

lemma mem_lead_iff (hc : endsPath c = true) : c ∈ lead cs ↔ c ∈ cs := by
  have hedge : ¬ isEdge c = true := fun h => by simp [endsPath_of_isEdge h] at hc
  have hbreak : isBreak c = false := eq_false_of_ne_true fun h => hedge (isEdge_of_isBreak h)
  have hlost : c ∉ cs.takeWhile isEdge := fun h => hedge (List.mem_takeWhile_imp h)
  rw [lead, withoutBreaks, List.mem_filter, hbreak]
  conv_rhs => rw [← List.takeWhile_append_dropWhile (p := isEdge) (l := cs), List.mem_append]
  simp [hlost]

namespace Opening

variable {whole : List Char} {n : ℕ} {app : String}

lemma exists_lead_eq (h : Opening cs n u scheme whole rest lost) :
    ∃ name, lead cs = name ++ ':' :: rest ∧ ∀ c ∈ name, inScheme c = true := by
  have hsplit := h.split []
  rw [List.append_nil, List.append_nil] at hsplit
  obtain ⟨c, name, hlead, -, hname, -⟩ := splitScheme?_eq_some_iff.mp hsplit
  exact ⟨c :: name, hlead, hname⟩

/-- The signs that begin a query or a fragment are behind the scheme. -/
lemma mem_rest_iff (h : Opening cs n u scheme whole rest lost) (hc : endsPath c = true) :
    c ∈ rest ↔ c ∈ cs := by
  obtain ⟨name, hlead, hname⟩ := h.exists_lead_eq
  have hsigns : inScheme c = false ∧ c ≠ ':' := by
    simp only [endsPath, Bool.or_eq_true, decide_eq_true_eq] at hc
    rcases hc with rfl | rfl <;> decide
  have hnot : c ∉ name := fun hmem => by simp [hname c hmem] at hsigns
  have hmem : c ∈ lead cs ↔ c ∈ cs := mem_lead_iff hc
  rw [← hmem, hlead, List.mem_append, List.mem_cons]
  simp [hnot, hsigns.2]

lemma isBase_iff (h : Opening (Config.trimSlashes t).toList n u scheme whole rest lost)
    (ht : t.toList = (Config.trimSlashes t).toList ++ List.replicate n '/') :
    IsBase t ↔ (∀ c ∈ rest, endsPath c = false) ∧ lost = []
      ∧ ((ownSegments rest).foldl turn []).getLast? ≠ some [] := by
  have hmem : ∀ {c}, endsPath c = true → (c ∈ t.toList ↔ c ∈ rest) := by
    intro c hc
    have hslash : c ∉ List.replicate n '/' := by
      intro hmem
      rw [List.eq_of_mem_replicate hmem] at hc
      simp [endsPath] at hc
    rw [ht, List.mem_append, h.mem_rest_iff hc, or_iff_left hslash]
  have hplain : (∀ c ∈ t.toList, endsPath c = false) ↔ ∀ c ∈ rest, endsPath c = false := by
    refine ⟨fun hall c hc => eq_false_of_ne_true fun hends => ?_,
      fun hall c hc => eq_false_of_ne_true fun hends => ?_⟩
    · simp [hall c ((hmem hends).mpr hc)] at hends
    · simp [hall c ((hmem hends).mp hc)] at hends
  have hwhole : Url.clean t.toList = lead t.toList ↔ lost = [] := by
    rw [ht, ← h.loses, List.self_eq_append_right]
  have hsegments : leadSegments (Config.trimSlashes t).toList = ownSegments rest := by
    have hsplit := h.split []
    rw [List.append_nil, List.append_nil] at hsplit
    rw [leadSegments, hsplit]
  rw [Url.isBase_iff, hplain, hwhole, hsegments]

end Opening

/-- **Addresses can be built on a base, and on nothing else.** -/
theorem exists_leadsOn_iff_isBase (ht : Url.parse t = .ok (.web u)) {app : String}
    (happ : ∀ c ∈ app.toList, inName c = true) :
    (∃ v, Url.parse (Config.trimSlashes t ++ applicationPath app) = .ok (.web v)
        ∧ LeadsOn u v (applicationPath app)) ↔ IsBase t := by
  obtain ⟨n, hslashes, -⟩ := Settings.exists_trimSlashes t
  obtain ⟨scheme, whole, rest, lost, hopening⟩ := exists_opening ht hslashes
  rw [hopening.isBase_iff hslashes, ← hopening.exists_leadsOn_iff (isWord_of_inName happ),
    String.ofList_toList]

end DeployClient.Url

namespace DeployClient

open Settings (Config Environment FoundLocked OthersLegible ReadsBack loadingDialect loggingLevel?
  storedEntries)
open Upload (applicationPath)
open Url (IsBase LeadsOn inName)

/-! ### Logging in -/

namespace Login

variable {l : Login} {path : Path} {s s' : Session} {u : Url}

lemma checkTarget_eq_ok_iff {target : String} :
    checkTarget target = .ok u ↔ Url.parse target = .ok (.web u) ∧ u.isHttp = true := by
  rw [checkTarget]
  split
  · simp_all
  · simp_all
  · next v hv =>
    rw [hv]
    split
    · next hhttp =>
      constructor
      · rintro ⟨⟩
        exact ⟨rfl, hhttp⟩
      · rintro ⟨⟨⟩, -⟩
        rfl
    · next hhttp =>
      refine iff_of_false (by simp) ?_
      rintro ⟨⟨⟩, hu⟩
      exact hhttp hu

/-- A login that goes well has checked its target. -/
lemma exists_checked (h : l.run path s = .ok () s') : ∃ u, checkTarget l.target = .ok u := by
  cases hcheck : checkTarget l.target with
  | ok u => exact ⟨u, rfl⟩
  | error e =>
    have hrun : l.run path s = .error e s := by
      rw [run, hcheck]
      rfl
    rw [hrun] at h
    cases h

lemma write_of_ok (h : l.run path s = .ok () s') :
    Settings.writeCredentials s.fs path l.target l.token = (.ok (), s'.fs) := by
  have hends := ends_run l path s
  rwa [Action.Ends, h] at hends

end Login

/-- **An accepted target is usable if it is a base, and only then.** After a login that goes well,
the configuration that is loaded builds addresses on the target as it was written, if the file says
the rest of it so that it can be read back. The address of an application is one of the place that
the target was read as, with its path put behind that of the target, exactly if the target has
neither queries, fragments nor blanks to lose and no empty name last. -/
theorem accepted_target_usable (l : Login) {path : Path} {env : Environment} {s s' : Session}
    (habs : path.isAbsolute = true) (henv : env.IsForeign) (h : l.run path s = .ok () s') :
    ∃ u es, Login.checkTarget l.target = .ok u ∧ storedEntries s.fs path = .ok es
      ∧ (∀ level, loggingLevel? (Toml.lookup? "logging" es) = some level →
        ReadsBack l.target l.token es → ¬ FoundLocked s.fs s'.fs path →
        ∃ config, Config.load s'.fs env path = .ok config
          ∧ ∀ app : String, (∀ c ∈ app.toList, inName c = true) →
            ((∃ text v, config.url (applicationPath app) = .ok text
                ∧ Url.parse text = .ok (.web v) ∧ LeadsOn u v (applicationPath app))
              ↔ IsBase l.target))
      ∧ (Toml.entriesAreSimple es = true → OthersLegible loadingDialect es →
        ReadsBack l.target l.token es) := by
  obtain ⟨u, hchecked⟩ := Login.exists_checked h
  have hwrite := Login.write_of_ok h
  obtain ⟨es, -, hes, -⟩ := Settings.exists_write_of_ok hwrite
  obtain ⟨hfile, htext⟩ := Settings.readText_of_ok (.inl habs) hes hwrite
  have hcarries := Settings.carriesOver_withCredentials l.target l.token
    (Settings.orderly_of_storedEntries hes).1
  refine ⟨u, es, hchecked, hes, fun level hlevel hback hopen => ?_,
    Settings.readsBack_of_legible hes⟩
  refine ⟨_, Settings.load_of_carriesOver hcarries habs hfile (htext hopen) hback henv hlevel,
    fun app happ => ?_⟩
  rw [← Url.exists_leadsOn_iff_isBase (Login.checkTarget_eq_ok_iff.mp hchecked).1 happ]
  constructor
  · rintro ⟨text, v, htext, hv, hleads⟩
    obtain rfl := Except.ok.inj htext
    exact ⟨v, hv, hleads⟩
  · rintro ⟨v, hv, hleads⟩
    exact ⟨_, v, rfl, hv, hleads⟩

/-- A login where `/c` is the one file. -/
def loginTo (target text : String) : EStateM.Result Login.Error Session Unit :=
  Login.run ⟨target, "t"⟩ ⟨[47, 99]⟩ (.new (.single text) confirming)

/-- It goes well, and leaves this configuration. -/
def leaves (config : Config) : EStateM.Result Login.Error Session Unit → Bool
  | .ok () s => decide (Config.load s.fs [] ⟨[47, 99]⟩ = .ok config)
  | .error _ _ => false

lemma exists_of_leaves {r : EStateM.Result Login.Error Session Unit} {config : Config}
    (h : leaves config r = true) :
    ∃ s, r = .ok () s ∧ Config.load s.fs [] ⟨[47, 99]⟩ = .ok config := by
  cases r with
  | ok a s => exact ⟨s, rfl, of_decide_eq_true h⟩
  | error e s => simp [leaves] at h

/-- A target with a backslash for a slash, the usual number of its scheme and slashes at its end. -/
theorem accepted_target_usable_spelt :
    ∃ s u config text v, loginTo "HTTP://h:80\\api/v1//" "[logging]\nlevel = \"info\"\n" = .ok () s
      ∧ Login.checkTarget "HTTP://h:80\\api/v1//" = .ok u
      ∧ Config.load s.fs [] ⟨[47, 99]⟩ = .ok config
      ∧ config.url (applicationPath "web-1") = .ok text ∧ Url.parse text = .ok (.web v)
      ∧ LeadsOn u v (applicationPath "web-1") := by
  have hleaves : leaves ⟨some "HTTP://h:80\\api/v1//", some "t", .info⟩
      (loginTo "HTTP://h:80\\api/v1//" "[logging]\nlevel = \"info\"\n") = true := by decide +kernel
  obtain ⟨s, hrun, -⟩ := exists_of_leaves hleaves
  have henv : Environment.IsForeign [] := by simp [Environment.IsForeign]
  obtain ⟨u, es, hu, hes, husable, hlegible⟩ := accepted_target_usable
    ⟨"HTTP://h:80\\api/v1//", "t"⟩ (by decide) henv hrun
  have hstored : ((storedEntries (.single "[logging]\nlevel = \"info\"\n") ⟨[47, 99]⟩).toOption.any
      fun es => decide (Toml.entriesAreSimple es = true ∧ OthersLegible loadingDialect es
        ∧ loggingLevel? (Toml.lookup? "logging" es) = some .info)) = true := by decide +kernel
  have hsame : storedEntries (.single "[logging]\nlevel = \"info\"\n") ⟨[47, 99]⟩ = .ok es := hes
  rw [hsame] at hstored
  obtain ⟨hsimple, hothers, hlevel⟩ := of_decide_eq_true hstored
  have hopen : ¬ FoundLocked (.single "[logging]\nlevel = \"info\"\n") s.fs ⟨[47, 99]⟩ :=
    fun h => Bool.noConfusion h.not_isPrivileged
  obtain ⟨config, hload, hbase⟩ := husable .info hlevel (hlegible hsimple hothers) hopen
  have hname : ∀ c ∈ "web-1".toList, inName c = true := List.all_eq_true.mp (by decide +kernel)
  obtain ⟨text, v, htext, hv, hleads⟩ := (hbase "web-1" hname).mpr (by decide +kernel)
  exact ⟨s, u, config, text, v, hrun, hu, hload, htext, hv, hleads⟩

/-- With a blank at its end a target is accepted, but no address that is built on it can be read.
With a fragment, all of them are the address of the target itself. -/
theorem accepted_target_unusable :
    (∃ s config text, loginTo "http://h " "" = .ok () s
      ∧ Config.load s.fs [] ⟨[47, 99]⟩ = .ok config
      ∧ config.url (applicationPath "web") = .ok text
      ∧ Url.parse text = .error .invalidDomain)
    ∧ ∃ s config text v, loginTo "http://h/#" "" = .ok () s
      ∧ Config.load s.fs [] ⟨[47, 99]⟩ = .ok config
      ∧ config.url (applicationPath "web") = .ok text
      ∧ Url.parse text = .ok (.web v) ∧ v.pathText = ['/']
      ∧ v.fragment = some "/apps/web".toList := by
  have hblank : leaves ⟨some "http://h ", some "t", .warn⟩ (loginTo "http://h " "") = true := by
    decide +kernel
  have hfragment : leaves ⟨some "http://h/#", some "t", .warn⟩
      (loginTo "http://h/#" "") = true := by
    decide +kernel
  obtain ⟨s, hrun, hload⟩ := exists_of_leaves hblank
  obtain ⟨s', hrun', hload'⟩ := exists_of_leaves hfragment
  refine ⟨⟨s, _, _, hrun, hload, rfl, ?_⟩, s', _, _, ?_, hrun', hload', rfl, ?_, ?_, ?_⟩
  · decide +kernel
  · exact ⟨"http".toList, [], [], .domain ['h'], none, [[]], none, some "/apps/web".toList⟩
  · decide +kernel
  · rfl
  · rfl

end DeployClient
