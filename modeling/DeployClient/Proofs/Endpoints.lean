import DeployClient.Proofs.AddressTails
import DeployClient.Proofs.Credentials
import DeployClient.Proofs.Uploads

/-!
Where an application is looked up, and where its files are sent.

The name of an application stands at the end of one address and in the middle of the other, as it is
written. So the second address is the first one and a segment more only if the name means the same
in both places: it must not begin a query or a fragment, lose blanks at its end, or end in dots.
-/

namespace DeployClient.Url

variable {done front segments : List (List Char)} {last w name verb cs tail : List Char} {v : Url}

/-! ### Names in addresses -/

/-- The segments that a name makes in the middle of an address. -/
def namedSegments (name : List Char) : List (List Char) := (withoutBreaks name).splitOnP isSlash

/-- The name means the same at the end of an address and in the middle of it: no sign in it begins a
query or a fragment, it has no blanks to lose at its end, and it does not end in dots. -/
@[mk_iff]
structure IsTame (name : List Char) : Prop where
  plain : ∀ c ∈ name, endsPath c = false
  whole : remains name = withoutBreaks name
  undotted : ∀ segment ∈ (namedSegments name).getLast?, isDots segment = false

/-- One segment, which is read as it is written. -/
@[mk_iff]
structure IsWord (word : List Char) : Prop where
  edges : ∀ c ∈ word, isEdge c = false
  plain : ∀ c ∈ word, endsPath c = false
  single : word.splitOnP isSlash = [word]
  undotted : isDots word = false
  encoded : percentEncode inPath word = word

instance (name : List Char) : Decidable (IsTame name) :=
  decidable_of_iff (name.all (fun c => !endsPath c) = true ∧ remains name = withoutBreaks name
      ∧ (namedSegments name).getLast?.all (fun segment => !isDots segment) = true)
    (by simp [isTame_iff, Option.all_eq_true])

instance (word : List Char) : Decidable (IsWord word) :=
  decidable_of_iff (word.all (fun c => !isEdge c && !endsPath c) = true
      ∧ word.splitOnP isSlash = [word] ∧ isDots word = false ∧ percentEncode inPath word = word)
    (by simp [isWord_iff, forall_and, and_assoc])

/-! ### Edges in segments -/

lemma forall_edges {P : Char → Prop} (h : ∀ n ≤ 0x20, P (Char.ofNat n)) {c : Char}
    (hc : isEdge c = true) : P c := by
  have hn := h c.toNat (of_decide_eq_true hc)
  rwa [Char.ofNat_toNat] at hn

lemma mem_decodeDots {c : Char} (hc : c ∈ cs) (hedge : isEdge c = true) : c ∈ decodeDots cs := by
  have hsigns : c ≠ '%' ∧ c ≠ '2' ∧ c ≠ '.' ∧ lower c ≠ 'e' :=
    forall_edges (P := fun c => c ≠ '%' ∧ c ≠ '2' ∧ c ≠ '.' ∧ lower c ≠ 'e') (by decide) hedge
  fun_induction decodeDots cs with
  | case1 d rest he ih =>
    have hd : c ≠ d := by
      rintro rfl
      exact hsigns.2.2.2 he
    exact List.mem_cons_of_mem _ (ih (by simpa [hsigns, hd] using hc))
  | case2 d rest he => exact hc
  | case3 rest ih => exact List.mem_cons_of_mem _ (ih (by simpa [hsigns] using hc))
  | case4 cs hpercent hdot => exact hc

lemma isDots_append (hw : ∀ c ∈ w, isEdge c = true) (hne : w ≠ []) :
    isDots (last ++ w) = false := by
  obtain ⟨c, hc⟩ := List.exists_mem_of_ne_nil w hne
  have hmem : c ∈ decodeDots (last ++ w) :=
    mem_decodeDots (List.mem_append_right last hc) (hw c hc)
  have hdot : c ≠ '.' := by
    rintro rfl
    exact absurd (hw _ hc) (by decide)
  rw [isDots, isParent, isCurrent, Bool.or_eq_false_iff, decide_eq_false_iff_not,
    decide_eq_false_iff_not]
  refine ⟨fun h => ?_, fun h => ?_⟩ <;> rw [h] at hmem <;> simp [hdot] at hmem

lemma percentEncode_ne_nil (hw : ∀ c ∈ w, isEdge c = true) (hne : w ≠ []) :
    percentEncode inPath w ≠ [] := by
  obtain ⟨c, w, rfl⟩ := List.exists_cons_of_ne_nil hne
  have hc : encodeChar inPath c ≠ [] :=
    forall_edges (P := fun c => encodeChar inPath c ≠ []) (by decide) (hw c List.mem_cons_self)
  simp [percentEncode, hc]

/-- Characters that are put behind a text are put behind its last piece. -/
lemma exists_splitOnP_append {p : Char → Bool} (cs : List Char) : ∃ front last,
    cs.splitOnP p = front ++ [last]
      ∧ ∀ w, (∀ c ∈ w, p c = false) → (cs ++ w).splitOnP p = front ++ [last ++ w] := by
  induction cs with
  | nil => exact ⟨[], [], List.splitOnP_nil, fun w hw => List.splitOnP_eq_singleton hw⟩
  | cons c cs ih =>
    obtain ⟨front, last, hcs, happend⟩ := ih
    by_cases hc : p c = true
    · refine ⟨[] :: front, last, ?_, fun w hw => ?_⟩
      · rw [List.splitOnP_cons_eq_if_modifyHead, if_pos hc, hcs]
        rfl
      · rw [List.cons_append, List.splitOnP_cons_eq_if_modifyHead, if_pos hc, happend w hw]
        rfl
    · cases front with
      | nil =>
        refine ⟨[], c :: last, ?_, fun w hw => ?_⟩
        · rw [List.splitOnP_cons_eq_if_modifyHead, if_neg hc, hcs]
          rfl
        · rw [List.cons_append, List.splitOnP_cons_eq_if_modifyHead, if_neg hc, happend w hw]
          rfl
      | cons first front =>
        refine ⟨(c :: first) :: front, last, ?_, fun w hw => ?_⟩
        · rw [List.splitOnP_cons_eq_if_modifyHead, if_neg hc, hcs]
          rfl
        · rw [List.cons_append, List.splitOnP_cons_eq_if_modifyHead, if_neg hc, happend w hw]
          rfl

/-- At the end of a path a segment leads where it leads in the middle if it is not dots, and has
not lost anything. -/
lemma foldl_turn_eq_followPath_iff (hw : ∀ c ∈ w, isEdge c = true) :
    (front ++ [last ++ w]).foldl turn done = followPath done (front ++ [last])
      ↔ w = [] ∧ isDots last = false := by
  rw [followPath_concat, List.foldl_concat, List.foldl_concat]
  set place := front.foldl turn done
  by_cases hne : w = []
  · subst hne
    cases isDots last <;> simp
  · rw [turn_of_not_isDots (isDots_append hw hne), percentEncode_append]
    refine iff_of_false (fun h => ?_) fun h => hne h.1
    have hencoded := percentEncode_ne_nil hw hne
    cases hdots : isDots last with
    | true =>
      rw [hdots, if_pos rfl] at h
      have hlast := (List.append_inj' h rfl).2
      simp [hencoded] at hlast
    | false =>
      rw [hdots, turn_of_not_isDots hdots] at h
      simp [hencoded] at h

/-! ### Endpoints -/

lemma followPath_append (hne : segments ≠ []) :
    followPath done (front ++ segments) = followPath (front.foldl turn done) segments := by
  induction front generalizing done with
  | nil => rfl
  | cons segment front ih =>
    rw [List.cons_append, followPath_cons (by simp [hne]), ih, List.foldl_cons]

lemma continued_append_slash (hcs : ∀ c ∈ cs, endsPath c = false) : v.continued segments
    (cs ++ '/' :: tail) = v.continued (segments ++ cs.splitOnP isSlash) tail := by
  have hplain := not_endsPath hcs
  rw [continued, continued, List.takeWhile_append_of_pos hplain,
    List.dropWhile_append_of_pos hplain, List.takeWhile_cons_of_pos (by decide),
    List.dropWhile_cons_of_pos (by decide), List.splitOnP_append_cons _ _ rfl, List.append_assoc]

lemma continued_of_plain (v : Url) (segments : List (List Char))
    (hcs : ∀ c ∈ cs, endsPath c = false) :
    (v.continued segments cs).path = followPath [] (segments ++ cs.splitOnP isSlash)
      ∧ (v.continued segments cs).query = none := by
  have hplain := not_endsPath hcs
  rw [continued, List.takeWhile_eq_self_iff.mpr hplain, List.dropWhile_eq_nil_iff.mpr hplain]
  exact ⟨rfl, rfl⟩

/-- Where the name is followed by a verb. -/
lemma continued_verb (v : Url) (segments : List (List Char)) (hverb : IsWord verb)
    (hcs : ∀ c ∈ cs, endsPath c = false) :
    (v.continued segments (cs ++ '/' :: verb)).path
        = (segments ++ cs.splitOnP isSlash).foldl turn [] ++ [verb]
      ∧ (v.continued segments (cs ++ '/' :: verb)).query = none := by
  obtain ⟨hpath, hquery⟩ :=
    continued_of_plain v (segments ++ cs.splitOnP isSlash) hverb.plain
  rw [continued_append_slash hcs, hpath, hverb.single, followPath_concat, List.foldl_concat,
    turn_of_not_isDots hverb.undotted, hverb.undotted, hverb.encoded]
  exact ⟨by simp, hquery⟩

/-- Blanks at the end of a name do not begin a query or a fragment. -/
lemma endsPath_of_mem {c : Char} (hc : c ∈ name) (hends : endsPath c = true) :
    c ∈ remains name := by
  obtain ⟨w, hw, hname⟩ := exists_remains_append name
  have hbreak : isBreak c = false := by
    by_contra hbreak
    have hedge := isEdge_of_isBreak (by simpa using hbreak)
    simp [endsPath_of_isEdge hedge] at hends
  have hmem : c ∈ remains name ++ w := hname ▸ List.mem_filter.mpr ⟨hc, by simp [hbreak]⟩
  refine (List.mem_append.mp hmem).resolve_right fun hcw => ?_
  simp [endsPath_of_isEdge (hw c hcw).1] at hends

/-- What stands after a query or a fragment has begun is in no path. -/
lemma path_continued_append (v : Url) (segments : List (List Char))
    (h : ∃ c ∈ cs, endsPath c = true) (tail : List Char) :
    (v.continued segments (cs ++ tail)).path = (v.continued segments cs).path := by
  obtain ⟨c, hc, hends⟩ := h
  obtain ⟨l, r, rfl⟩ := List.append_of_mem hc
  rw [continued, continued, List.append_assoc, List.cons_append,
    takeWhile_append_cons (by simp [hends]), takeWhile_append_cons (by simp [hends])]

/-- **A name that is tame, and no other, is followed by a verb without being changed.** -/
theorem path_eq_concat_iff (v : Url) (segments : List (List Char)) (hverb : IsWord verb) :
    (v.continued segments (withoutBreaks name ++ '/' :: verb)).path
        = (v.continued segments (remains name)).path ++ [verb]
      ∧ (v.continued segments (remains name)).query = none
      ∧ (v.continued segments (withoutBreaks name ++ '/' :: verb)).query = none
    ↔ IsTame name := by
  obtain ⟨w, hw, hname⟩ := exists_remains_append name
  by_cases hplain : ∀ c ∈ name, endsPath c = false
  · have hwhole : ∀ c ∈ withoutBreaks name, endsPath c = false := fun c hc =>
      hplain c (List.mem_of_mem_filter hc)
    have hremains : ∀ c ∈ remains name, endsPath c = false := fun c hc =>
      hwhole c (hname ▸ List.mem_append_left w hc)
    have hslash : ∀ c ∈ w, isSlash c = false := fun c hc =>
      forall_edges (P := fun c => isSlash c = false) (by decide) (hw c hc).1
    obtain ⟨front, last, hsplit, happend⟩ := exists_splitOnP_append (p := isSlash) (remains name)
    have hsegments : namedSegments name = front ++ [last ++ w] := by
      rw [namedSegments, hname, happend w hslash]
    obtain ⟨hpath, hquery⟩ := continued_of_plain v segments hremains
    obtain ⟨hpath', hquery'⟩ := continued_verb v segments hverb hwhole
    rw [hpath, hpath', hquery, hquery', hsplit, ← namedSegments, hsegments,
      followPath_append (by simp), List.foldl_append, List.append_cancel_right_eq,
      foldl_turn_eq_followPath_iff fun c hc => (hw c hc).1]
    constructor
    · rintro ⟨⟨rfl, hdots⟩, -, -⟩
      refine ⟨hplain, by simpa using hname.symm, ?_⟩
      rw [hsegments]
      simpa using hdots
    · rintro ⟨-, hsame, hundotted⟩
      obtain rfl : w = [] := by simpa [hsame] using hname
      rw [hsegments] at hundotted
      exact ⟨⟨rfl, by simpa using hundotted⟩, rfl, rfl⟩
  · refine iff_of_false (fun h => ?_) fun h => hplain h.plain
    simp only [not_forall, Bool.not_eq_false] at hplain
    obtain ⟨c, hc, hends⟩ := hplain
    have hsame := path_continued_append v segments ⟨c, endsPath_of_mem hc hends, hends⟩
      (w ++ '/' :: verb)
    rw [← List.append_assoc, ← hname, h.1] at hsame
    simp at hsame

/-- **A segment that is put before a tame name** stays where it is put, if the name leads nowhere
above. -/
theorem path_inserted {inserted word : List Char} (v : Url) (segments : List (List Char))
    (hverb : IsWord verb) (hname : IsTame name) (hstays : stays 1 (namedSegments name) = true)
    (hinserted : IsWord inserted) (hword : IsWord word) :
    let lookup := v.continued (segments ++ [word]) (remains name)
    let post := v.continued (segments ++ [inserted, word]) (withoutBreaks name ++ '/' :: verb)
    ∃ below, lookup.path = segments.foldl turn [] ++ below
      ∧ post.path = segments.foldl turn [] ++ inserted :: (below ++ [verb])
      ∧ lookup.query = none ∧ post.query = none := by
  intro lookup post
  have hplain : ∀ c ∈ withoutBreaks name, endsPath c = false := fun c hc =>
    hname.plain c (List.mem_of_mem_filter hc)
  have hturn : ∀ {done : List (List Char)} {x}, IsWord x → turn done x = done ++ [x] := by
    intro done x hx
    rw [turn_of_not_isDots hx.undotted, hx.encoded]
  have hbelow : ∀ own, (namedSegments name).foldl turn (own ++ [word])
      = own ++ (namedSegments name).foldl turn [word] := fun own => foldl_turn_append hstays
  obtain ⟨hlookup, hquery, -⟩ := (path_eq_concat_iff v (segments ++ [word]) hverb).mpr hname
  obtain ⟨hpost, hquery'⟩ := continued_verb v (segments ++ [inserted, word]) hverb hplain
  refine ⟨(namedSegments name).foldl turn [word], ?_, ?_, hquery, hquery'⟩
  · rw [(continued_verb _ _ hverb hplain).1, List.append_cancel_right_eq, ← namedSegments]
      at hlookup
    rw [← hlookup, List.foldl_append, List.foldl_append, List.foldl_cons, List.foldl_nil,
      hturn hword, hbelow]
  · rw [hpost, ← namedSegments, List.foldl_append, List.foldl_append, List.foldl_cons,
      List.foldl_cons, List.foldl_nil, hturn hinserted, hturn hword, hbelow]
    simp

end DeployClient.Url

namespace DeployClient.Upload

open Http (Body Method Request)
open Settings (Config)
open Url (IsTame IsWord continued namedSegments remains stays turn withoutBreaks)

variable {config : Config} {method : Method} {address : Except Settings.Error String}
  {body : Body} {r lookup post : Request} {t : String} {u v : Url}

/-! ### Requests to endpoints -/

/-- The request can be sent. -/
def Prepared (config : Config) (method : Method) (address : Except Settings.Error String)
    (body : Body) (r : Request) : Prop :=
  ∃ text token, address = .ok text ∧ config.requireToken = .ok token
    ∧ Request.prepare? method text token body = some r

/-- A lookup and an upload that go to one server. -/
structure OneServer (lookup post : Request) : Prop where
  gets : lookup.method = .get
  posts : post.method = .post
  scheme : post.url.scheme = lookup.url.scheme
  host : post.url.host = lookup.url.host
  portNumber : post.url.portNumber = lookup.url.portNumber

/-- The path of the target, as it is followed by others: the address of its root has an empty name
after it. -/
def OwnPath (config : Config) (own : List (List Char)) : Prop :=
  ∃ text v, config.url "/" = .ok text ∧ Url.parse text = .ok (.web v) ∧ v.path = own ++ [[]]

/-- How the addresses of a configuration are read: they have a site in common, and segments before
what is put behind the target. -/
structure Reads (config : Config) (base : Except Url.ParseError Url)
    (segments : List (List Char)) : Prop where
  text : ∀ path, ∃ text, config.url path = .ok text
  parse : ∀ path tail text, path.toList = '/' :: tail → config.url path = .ok text →
    Url.parse text = base.map fun v => .web (v.continued segments (remains tail))

lemma exists_reads (ht : Url.parse t = .ok (.web u)) (hquery : u.query = none)
    (hfragment : u.fragment = none) (htarget : config.target = some t) :
    ∃ base segments, Reads config base segments := by
  obtain ⟨n, hslashes, -⟩ := Settings.exists_trimSlashes t
  obtain ⟨base, segments, hparse⟩ := Url.exists_parse_append ht hquery hfragment hslashes
  have hurl : ∀ path, config.url path = .ok (Config.trimSlashes t ++ path) := by
    intro path
    rw [Config.url, htarget]
  refine ⟨base, segments, fun path => ⟨_, hurl path⟩, fun path tail text hpath htext => ?_⟩
  rw [← hparse tail, ← Except.ok.inj ((hurl path).symm.trans htext), ← hpath,
    ← String.toList_append, String.ofList_toList]

namespace Reads

variable {base : Except Url.ParseError Url} {segments : List (List Char)} {path path' : String}
  {tail tail' : List Char}

lemma exists_url (h : Reads config base segments) (hpath : path.toList = '/' :: tail)
    (hr : Asks config method (config.url path) body r) :
    ∃ v, base = .ok v ∧ r.url = (v.continued segments (remains tail)).anonymous := by
  obtain ⟨text, url, htext, hurl, hr⟩ := hr.url
  rw [h.parse path tail text hpath htext] at hurl
  cases base with
  | error e => simp [Except.map] at hurl
  | ok v =>
    obtain rfl := Url.Reference.web.inj (Except.ok.inj hurl)
    exact ⟨v, rfl, hr⟩

/-- If one of the addresses can be asked, so can the others. -/
lemma prepared (h : Reads config base segments) (hpath : path.toList = '/' :: tail)
    (hpath' : path'.toList = '/' :: tail') (hr : Prepared config method (config.url path) body r)
    (method' : Method) (body' : Body) :
    ∃ r', Prepared config method' (config.url path') body' r' := by
  obtain ⟨text, token, htext, htoken, hprepare⟩ := hr
  obtain ⟨text', htext'⟩ := h.text path'
  have hparse := h.parse path tail text hpath htext
  have hparse' := h.parse path' tail' text' hpath' htext'
  rw [Request.prepare?, hparse] at hprepare
  cases base with
  | error e => simp [Except.map] at hprepare
  | ok v =>
    have hshown : (v.isHttp && token.toList.all Http.inHeader) = true := by
      simp only [Except.map] at hprepare
      split at hprepare
      · next hshown => exact hshown
      · simp at hprepare
    refine ⟨⟨method', (v.continued segments (remains tail')).anonymous, some (Http.bearer token),
      body'⟩, text', token, htext', htoken, ?_⟩
    rw [Request.prepare?, hparse']
    exact if_pos hshown

end Reads

/-! ### Words before and after a name -/

lemma continued_word {word : List Char} (segments : List (List Char)) (hword : IsWord word)
    (tail : List Char) : v.continued segments (remains (word ++ '/' :: tail))
      = v.continued (segments ++ [word]) (remains tail) := by
  rw [Url.remains_append_slash, Url.withoutBreaks_eq_self hword.edges,
    Url.continued_append_slash hword.plain, hword.single]

lemma remains_verb {verb : List Char} (hverb : IsWord verb) (name : List Char) :
    remains (name ++ '/' :: verb) = withoutBreaks name ++ '/' :: verb := by
  rw [Url.remains_append_slash, Url.remains_eq_self hverb.edges]

lemma areWords : IsWord "apps".toList ∧ IsWord "deploy".toList ∧ IsWord "build".toList
    ∧ IsWord BuildImage.endpointVersion.toList := by decide +kernel

lemma toList_applicationPath (app : String) :
    (applicationPath app).toList = '/' :: ("apps".toList ++ '/' :: app.toList) := by
  simp [applicationPath]

lemma toList_deployPath (app : String) : (applicationPath app ++ "/deploy").toList
    = '/' :: ("apps".toList ++ '/' :: (app.toList ++ '/' :: "deploy".toList)) := by
  simp [toList_applicationPath]

lemma toList_buildPath (app : String) :
    ("/" ++ BuildImage.endpointVersion ++ (applicationPath app ++ "/build")).toList
      = '/' :: (BuildImage.endpointVersion.toList ++ '/' :: ("apps".toList
        ++ '/' :: (app.toList ++ '/' :: "build".toList))) := by
  simp [toList_applicationPath]

namespace Reads

variable {base : Except Url.ParseError Url} {segments : List (List Char)} {app : String}
  {d : Deploy} {b : BuildImage}

/-- The path of the target is the one that its segments lead to. -/
lemma ownPath (h : Reads config (.ok v) segments) : OwnPath config (segments.foldl turn []) := by
  obtain ⟨text, htext⟩ := h.text "/"
  refine ⟨text, _, htext, h.parse "/" [] text rfl htext, ?_⟩
  show Url.followPath [] (segments ++ [[]]) = _
  rw [Url.followPath_concat, List.foldl_concat, Url.turn_of_not_isDots rfl]
  exact List.append_nil _

lemma lookup_url (h : Reads config base segments)
    (hr : Asks config .get (config.url (applicationPath app)) .empty r) : ∃ v, base = .ok v
      ∧ r.url = (v.continued (segments ++ ["apps".toList]) (remains app.toList)).anonymous := by
  obtain ⟨v, hv, hurl⟩ := h.exists_url (toList_applicationPath app) hr
  rw [continued_word segments areWords.1] at hurl
  exact ⟨v, hv, hurl⟩

lemma deploy_url (h : Reads config base segments)
    (hr : Asks config .post (d.address config) body r) : ∃ v, base = .ok v
      ∧ r.url = (v.continued (segments ++ ["apps".toList])
        (withoutBreaks d.app.toList ++ '/' :: "deploy".toList)).anonymous := by
  obtain ⟨v, hv, hurl⟩ := h.exists_url (toList_deployPath d.app) hr
  obtain ⟨happs, hdeploy, -, -⟩ := areWords
  rw [continued_word segments happs, remains_verb hdeploy] at hurl
  exact ⟨v, hv, hurl⟩

lemma build_url (h : Reads config base segments)
    (hr : Asks config .post (b.address config) body r) : ∃ v, base = .ok v
      ∧ r.url = (v.continued (segments ++ [BuildImage.endpointVersion.toList, "apps".toList])
        (withoutBreaks b.app.toList ++ '/' :: "build".toList)).anonymous := by
  obtain ⟨v, hv, hurl⟩ := h.exists_url (toList_buildPath b.app) hr
  obtain ⟨happs, -, hbuild, hversion⟩ := areWords
  rw [continued_word segments hversion, continued_word _ happs, remains_verb hbuild,
    List.append_assoc] at hurl
  exact ⟨v, hv, hurl⟩

end Reads

lemma oneServer {segments segments' : List (List Char)} {tail tail' : List Char}
    (hgets : lookup.method = .get) (hposts : post.method = .post)
    (hlookup : lookup.url = (v.continued segments tail).anonymous)
    (hpost : post.url = (v.continued segments' tail').anonymous) : OneServer lookup post := by
  refine ⟨hgets, hposts, ?_, ?_, ?_⟩ <;> rw [hlookup, hpost] <;> rfl

/-- The two requests that a run has issued. -/
lemma asks_of_gated {ε : Type} {app : String} {Ready : FileSystem → Body → Prop} {s : Session}
    {result : EStateM.Result ε Session Unit} (h : Gated config app address Ready s result)
    (hrequests : (ending result).requests = s.requests ++ [lookup, post]) :
    Asks config .get (config.url (applicationPath app)) .empty lookup
      ∧ ∃ body, Asks config .post address body post := by
  obtain ⟨asked, hasked, hissued⟩ := h.issued
  obtain rfl : asked = [lookup, post] := List.append_cancel_left (hasked.symm.trans hrequests)
  cases hissued with
  | both hlookup accepted ready hpost => exact ⟨hlookup, _, hpost⟩

namespace Reads

variable {base : Except Url.ParseError Url} {segments : List (List Char)} {s : Session}

/-- A deployment goes to the path of the lookup and a segment more exactly if the name is tame. -/
lemma deploy_follows (h : Reads config base segments) {d : Deploy}
    (hrequests : (ending (d.run config s)).requests = s.requests ++ [lookup, post]) :
    OneServer lookup post ∧ (post.url.path = lookup.url.path ++ ["deploy".toList]
      ∧ lookup.url.query = none ∧ post.url.query = none ↔ IsTame d.app.toList) := by
  obtain ⟨hlookup, body, hpost⟩ := asks_of_gated (d.run_gated config s).1 hrequests
  obtain ⟨v, rfl, hurl⟩ := h.lookup_url hlookup
  obtain ⟨w, hw, hurl'⟩ := h.deploy_url hpost
  obtain rfl := Except.ok.inj hw
  refine ⟨oneServer hlookup.method hpost.method hurl hurl', ?_⟩
  rw [hurl, hurl']
  exact Url.path_eq_concat_iff v _ areWords.2.1

/-- A build goes to the path of the lookup with two segments more if the name is tame and leads
nowhere above. -/
lemma build_follows (h : Reads config base segments) {b : BuildImage}
    (hrequests : (ending (b.run config s)).requests = s.requests ++ [lookup, post]) :
    OneServer lookup post
      ∧ (IsTame b.app.toList → stays 1 (namedSegments b.app.toList) = true →
        ∃ own below, OwnPath config own ∧ lookup.url.path = own ++ below
          ∧ post.url.path = own ++ BuildImage.endpointVersion.toList :: (below ++ ["build".toList])
          ∧ lookup.url.query = none ∧ post.url.query = none) := by
  obtain ⟨hlookup, body, hpost⟩ := asks_of_gated (b.run_gated config s).1 hrequests
  obtain ⟨v, rfl, hurl⟩ := h.lookup_url hlookup
  obtain ⟨w, hw, hurl'⟩ := h.build_url hpost
  obtain rfl := Except.ok.inj hw
  refine ⟨oneServer hlookup.method hpost.method hurl hurl', fun htame hstays => ?_⟩
  rw [hurl, hurl']
  obtain ⟨happs, -, hbuild, hversion⟩ := areWords
  obtain ⟨below, hpaths⟩ := Url.path_inserted v segments hbuild htame hstays hversion happs
  exact ⟨_, below, h.ownPath, hpaths⟩

end Reads

end Upload

open Upload (OneServer OwnPath Prepared applicationPath ending)
open Url (IsTame namedSegments stays)

/-- **What is uploaded goes where the application was looked up.** If the lookup can be sent, then
so can the upload, and to the same server. A deployment goes to the path of the lookup and a segment
more, without a query, exactly if the name of the application is tame. A build does so with its
version after the path of the target, if besides the name leads to no place above its own. -/
theorem uploads_follow_lookup {t : String} {u : Url} {config : Settings.Config}
    (ht : Url.parse t = .ok (.web u)) (hquery : u.query = none) (hfragment : u.fragment = none)
    (htarget : config.target = some t) :
    (∀ d : Deploy,
      (∀ lookup body, Prepared config .get (config.url (applicationPath d.app)) .empty lookup →
        ∃ post, Prepared config .post (d.address config) body post)
      ∧ ∀ s lookup post, (ending (d.run config s)).requests = s.requests ++ [lookup, post] →
        OneServer lookup post
        ∧ (post.url.path = lookup.url.path ++ ["deploy".toList] ∧ lookup.url.query = none
            ∧ post.url.query = none ↔ IsTame d.app.toList))
    ∧ ∀ b : BuildImage,
      (∀ lookup body, Prepared config .get (config.url (applicationPath b.app)) .empty lookup →
        ∃ post, Prepared config .post (b.address config) body post)
      ∧ ∀ s lookup post, (ending (b.run config s)).requests = s.requests ++ [lookup, post] →
        OneServer lookup post
        ∧ (IsTame b.app.toList → stays 1 (namedSegments b.app.toList) = true →
          ∃ own below, OwnPath config own ∧ lookup.url.path = own ++ below
            ∧ post.url.path
              = own ++ BuildImage.endpointVersion.toList :: (below ++ ["build".toList])
            ∧ lookup.url.query = none ∧ post.url.query = none) := by
  obtain ⟨base, segments, hreads⟩ := Upload.exists_reads ht hquery hfragment htarget
  refine ⟨fun d => ⟨fun lookup body hlookup => ?_, fun s lookup post => hreads.deploy_follows⟩,
    fun b => ⟨fun lookup body hlookup => ?_, fun s lookup post => hreads.build_follows⟩⟩
  · exact hreads.prepared (Upload.toList_applicationPath _) (Upload.toList_deployPath _) hlookup
      .post body
  · exact hreads.prepared (Upload.toList_applicationPath _) (Upload.toList_buildPath _) hlookup
      .post body

/-- A server that confirms whatever it is asked. -/
def confirming : Http.Network :=
  ⟨.domain ['h'], 80, fun _ => .reply ⟨200, [.data (Bytes.ofText "\nOK\n")]⟩⟩

/-- The requests for the deployment of an image. -/
def requestsFor (app target : String) : List Http.Request :=
  let d : Deploy := ⟨app, some "img", none, none, false, []⟩
  let s := Session.new ⟨.directory ⟨0o755, 0, .root⟩ [], [], 0, .root⟩ confirming
  (ending (d.run ⟨some target, some "t", .warn⟩ s)).requests

/-- A target with a path of its own, and a name with dots that is tame. -/
theorem uploads_follow_lookup_dots :
    ∃ u lookup post, Url.parse "http://h/api/" = .ok (.web u) ∧ u.query = none ∧ u.fragment = none
      ∧ requestsFor "a/../web" "http://h/api/" = [lookup, post] ∧ OneServer lookup post
      ∧ lookup.url.path = ["api".toList, "apps".toList, "web".toList]
      ∧ post.url.path = ["api".toList, "apps".toList, "web".toList, "deploy".toList]
      ∧ lookup.url.query = none ∧ post.url.query = none := by
  let u : Url := ⟨"http".toList, [], [], .domain ['h'], none, ["api".toList, []], none, none⟩
  let d : Deploy := ⟨"a/../web", some "img", none, none, false, []⟩
  have ht : Url.parse "http://h/api/" = .ok (.web u) := by decide +kernel
  have htame : IsTame d.app.toList := by decide +kernel
  have hpaths : (requestsFor d.app "http://h/api/").map (·.url.path)
      = [["api".toList, "apps".toList, "web".toList],
        ["api".toList, "apps".toList, "web".toList, "deploy".toList]] := by decide +kernel
  obtain ⟨lookup, rest, hrequests, hlookup, hrest⟩ := List.map_eq_cons_iff.mp hpaths
  obtain ⟨post, rfl, hpost⟩ := List.map_eq_singleton_iff.mp hrest
  obtain ⟨hdeploy, -⟩ :=
    @uploads_follow_lookup _ u ⟨some "http://h/api/", some "t", .warn⟩ ht rfl rfl rfl
  obtain ⟨hserver, hfollows⟩ := (hdeploy d).2 _ lookup post hrequests
  obtain ⟨hpath, hquery, hquery'⟩ := hfollows.mpr htame
  exact ⟨u, lookup, post, ht, rfl, rfl, hrequests, hserver, hlookup, by rw [hpath, hlookup]; rfl,
    hquery, hquery'⟩

/-- A name that begins a fragment hides what follows it: the upload is sent to the path of the
lookup itself, in both cases without a query. -/
theorem upload_sent_to_lookup :
    ∃ lookup post, requestsFor "web#x" "http://h" = [lookup, post] ∧ post.method = .post
      ∧ lookup.url.path = ["apps".toList, "web".toList]
      ∧ post.url.path = ["apps".toList, "web".toList]
      ∧ lookup.url.query = none ∧ post.url.query = none := by
  have hrequests : (requestsFor "web#x" "http://h").map
      (fun r => (r.method, r.url.path, r.url.query))
      = [(.get, ["apps".toList, "web".toList], none),
        (.post, ["apps".toList, "web".toList], none)] := by decide +kernel
  obtain ⟨lookup, rest, hrequests, hlookup, hrest⟩ := List.map_eq_cons_iff.mp hrequests
  obtain ⟨post, rfl, hpost⟩ := List.map_eq_singleton_iff.mp hrest
  simp only [Prod.mk.injEq] at hlookup hpost
  exact ⟨lookup, post, hrequests, hpost.1, hlookup.2.1, hpost.2.1, hlookup.2.2, hpost.2.2⟩

end DeployClient
