import DeployClient.Commands.BuildImage
import DeployClient.Commands.Deploy
import DeployClient.Proofs.ActionEnds
import DeployClient.Proofs.Building
import DeployClient.Proofs.Following
import Mathlib.Data.List.TakeWhile

/-!
Which requests an upload issues, and when it has succeeded.

An application is looked up first, and what is uploaded is put together after that. So a request
stands for all that was checked before it, and nothing that fails on the way can be followed by
one. Success is read off the end of the reply, however the reply is cut into pieces.
-/

namespace DeployClient

open Http (Body Method Part Reading Reply Request Status.isError)
open Settings (Config)

open DeployClient.Action (Ends)

/-- These requests have been issued, and apart from notes nothing else has happened. -/
structure Session.Asked (s : Session) (asked : List Request) (s' : Session) : Prop where
  requests : s'.requests = s.requests ++ asked
  network : s'.network = s.network
  fs : s'.fs = s.fs
  printed : s'.printed = s.printed

namespace Session.Asked

variable {ε : Type} {s s' s'' : Session} {asked more : List Request}

lemma refl (s : Session) : s.Asked [] s := ⟨by simp, rfl, rfl, rfl⟩

lemma trans (h : s.Asked asked s') (h' : s'.Asked more s'') : s.Asked (asked ++ more) s'' :=
  ⟨by rw [h'.requests, h.requests, List.append_assoc], h'.network.trans h.network,
    h'.fs.trans h.fs, h'.printed.trans h.printed⟩

lemma say (h : s.Asked asked s') (text : String) {E : Session → Prop} :
    Ends (Action.say text : Action ε Unit) s' (fun _ s'' => s.Asked asked s'') E :=
  Ends.modify ⟨h.requests, h.network, h.fs, h.printed⟩

lemma tell (h : s.Asked asked s') (notes : List Note) {E : Session → Prop} :
    Ends (Action.tell notes : Action ε Unit) s' (fun _ s'' => s.Asked asked s'') E :=
  Ends.modify ⟨h.requests, h.network, h.fs, h.printed⟩

end Session.Asked

namespace Upload

variable {ε : Type} {s s' : Session} {config : Config} {method : Method} {body : Body}
  {address : Except Settings.Error String} {request : Option Request} {r post : Request}
  {reply : Reply}

/-! ### Following a reply -/

/-- What a reply has to be for an operation to have succeeded: it tells of no error, it can be read
to its end, and the marker comes last. All of it has been printed. -/
structure Confirms (reply : Reply) (s s' : Session) : Prop where
  accepted : Status.isError reply.status = false
  whole : ∀ e, .failed e ∉ reply.content
  printed : s'.printed = s.printed ++ bytesOf reply.content
  marked : successMarker <:+ bytesOf reply.content

lemma receive_ends (reply : Reply) (s : Session) :
    Ends (receive reply) s
      (fun _ s' => s'.requests = s.requests ∧ (∀ e, .failed e ∉ reply.content)
        ∧ s'.printed = s.printed ++ bytesOf reply.content
        ∧ successMarker <:+ bytesOf reply.content)
      fun s' => s'.requests = s.requests
        ∧ ¬ ((∀ e, .failed e ∉ reply.content) ∧ successMarker <:+ bytesOf reply.content) := by
  unfold Ends
  rw [receive_eq]
  cases hfailure : failure? reply.content with
  | some e =>
    refine ⟨rfl, fun ⟨hwhole, _⟩ => ?_⟩
    simp [failure?_eq_none_iff.mpr hwhole] at hfailure
  | none =>
    have hwhole := failure?_eq_none_iff.mp hfailure
    rw [received_of_whole hfailure]
    by_cases hmarked : successMarker <:+ bytesOf reply.content
    · simp only [if_pos hmarked]
      exact ⟨rfl, hwhole, rfl, hmarked⟩
    · simp only [if_neg hmarked]
      exact ⟨rfl, fun h => hmarked h.2⟩

/-! ### Requests -/

/-- A request to an address that was made from the configuration, with the token from there. -/
structure Asks (config : Config) (method : Method) (address : Except Settings.Error String)
    (body : Body) (r : Request) : Prop where
  method : r.method = method
  body : r.body = body
  authorization : ∃ token, config.token = some token ∧ r.authorization = some (Http.bearer token)
  url : ∃ text url, address = .ok text ∧ Url.parse text = .ok (.web url) ∧ r.url = url.anonymous

lemma asks_of_prepare? {text token : String} (ha : address = .ok text)
    (ht : config.requireToken = .ok token)
    (h : Request.prepare? method text token body = some r) :
    Asks config method address body r := by
  unfold Request.prepare? at h
  split at h
  · next url hurl =>
    split at h
    · obtain rfl := Option.some.inj h
      refine ⟨rfl, rfl, ⟨token, ?_, rfl⟩, text, url, ha, hurl, rfl⟩
      unfold Settings.Config.requireToken at ht
      split at ht
      · next t htoken => rw [htoken, Except.ok.inj ht]
      · simp at ht
    · simp at h
  · simp at h

lemma prepare_ends (method : Method) (address : Except Settings.Error String) (config : Config)
    (body : Body) (s : Session) :
    Ends (prepare method address config body) s
      (fun request s' => s' = s ∧ ∀ r, request = some r → Asks config method address body r)
      fun s' => s' = s := by
  unfold prepare
  refine Ends.bind (Q := fun text s' => s' = s ∧ address = .ok text)
    (Ends.wrap _ (Ends.ofExcept (fun text h => ⟨rfl, h⟩) fun _ _ => rfl)) ?_
  rintro text _ ⟨rfl, ha⟩
  next s =>
  refine Ends.bind (Q := fun token s' => s' = s ∧ config.requireToken = .ok token)
    (Ends.wrap _ (Ends.ofExcept (fun token h => ⟨rfl, h⟩) fun _ _ => rfl)) ?_
  rintro token _ ⟨rfl, ht⟩
  exact Ends.pure ⟨rfl, fun r h => asks_of_prepare? ha ht h⟩

/-- A request that has reached the server, and a reply of the server that tells of no error. -/
def Accepted (s : Session) (r : Request) (reply : Reply) : Prop :=
  s.network.answer (s.requests ++ [r]) = .reply reply ∧ Status.isError reply.status = false

lemma exchange_ends (request : Option Request) (s : Session) :
    Ends (exchange request) s
      (fun reply s' => ∃ r, request = some r ∧ s.Asked [r] s' ∧ Accepted s r reply)
      fun s' => s' = s
        ∨ ∃ r, request = some r ∧ s.Asked [r] s' ∧ ∀ reply, ¬ Accepted s r reply := by
  unfold exchange
  split
  · next r =>
    refine Ends.wrap _ ?_
    unfold Action.exchange
    refine Ends.bind (Q := fun a s' => a = s ∧ s' = s) (Ends.get ⟨rfl, rfl⟩) ?_
    rintro _ _ ⟨rfl, rfl⟩
    next s =>
    split
    · exact Ends.throw (.inl rfl)
    · have hasked : s.Asked [r] { s with requests := s.requests ++ [r] } := ⟨rfl, rfl, rfl, rfl⟩
      refine Ends.bind (Q := fun _ s' => s.Asked [r] s') (Ends.set hasked) ?_
      rintro - s' hs'
      split
      · next hdropped =>
        refine Ends.throw (.inr ⟨r, rfl, hs', fun reply h => ?_⟩)
        simp [h.1] at hdropped
      · next reply hreply =>
        split
        · next herror =>
          refine Ends.throw (.inr ⟨r, rfl, hs', fun reply' h => ?_⟩)
          obtain rfl := Http.Answer.reply.inj (hreply.symm.trans h.1)
          simp [h.2] at herror
        · next herror =>
          exact Ends.pure ⟨r, rfl, hs', hreply, by simpa using herror⟩
  · exact Ends.throw (.inl rfl)

/-- Looking up an application: a request has been issued unless the lookup could not be made. -/
lemma ensureAppExists_ends (config : Config) (app : String) (s : Session) :
    Ends (ensureAppExists config app) s
      (fun _ s' => ∃ r reply, Asks config .get (config.url (applicationPath app)) .empty r
        ∧ s.Asked [r] s' ∧ Accepted s r reply)
      fun s' => s'.requests = s.requests
        ∨ ∃ r, Asks config .get (config.url (applicationPath app)) .empty r
          ∧ s'.requests = s.requests ++ [r] := by
  unfold ensureAppExists
  refine Ends.bind ((Session.Asked.refl s).say _) ?_
  rintro - s₁ h₁
  refine Ends.bind ((prepare_ends _ _ _ _ s₁).mono (fun _ _ h => h) ?_) ?_
  · rintro _ rfl
    exact .inl (by simpa using h₁.requests)
  rintro request _ ⟨rfl, hasks⟩
  next s₁ =>
  have hstart : s₁.requests = s.requests := by simpa using h₁.requests
  refine Ends.bind ((exchange_ends request s₁).mono (fun _ _ h => h) ?_) ?_
  · rintro s₂ (rfl | ⟨r, hr, h₂, -⟩)
    · exact .inl hstart
    · exact .inr ⟨r, hasks r hr, by rw [h₂.requests, hstart]⟩
  · rintro reply s₂ ⟨r, hr, h₂, haccepted⟩
    refine Ends.pure ⟨r, reply, hasks r hr, h₁.trans h₂, ?_⟩
    rw [Accepted, hstart, h₁.network] at haccepted
    exact haccepted

/-- The request has been issued, and the reply has confirmed what was asked for. -/
def Confirmed (s : Session) (r : Request) (s' : Session) : Prop :=
  s'.requests = s.requests ++ [r] ∧ ∃ reply,
    s.network.answer (s.requests ++ [r]) = .reply reply ∧ Confirms reply s s'

/-- The request has not been issued, or no reply has confirmed it. -/
def Unconfirmed (s : Session) (r : Request) (s' : Session) : Prop :=
  s'.requests = s.requests ∨ s'.requests = s.requests ++ [r] ∧ ∀ reply,
    s.network.answer (s.requests ++ [r]) = .reply reply → ¬ Confirms reply s s'

lemma send_ends (request : Option Request) (s : Session) :
    Ends (send request) s (fun _ s' => ∃ r, request = some r ∧ Confirmed s r s')
      fun s' => s'.requests = s.requests ∨ ∃ r, request = some r ∧ Unconfirmed s r s' := by
  unfold send
  refine Ends.bind ((exchange_ends request s).mono (fun _ _ h => h) ?_) ?_
  · rintro s₁ (rfl | ⟨r, hr, h₁, hnone⟩)
    · exact .inl rfl
    · refine .inr ⟨r, hr, .inr ⟨h₁.requests, fun reply hreply hconfirms => ?_⟩⟩
      exact hnone reply ⟨hreply, hconfirms.accepted⟩
  rintro reply s₁ ⟨r, hr, h₁, hreply, haccepted⟩
  refine Ends.bind (h₁.tell _) ?_
  rintro - s₂ h₂
  refine (receive_ends reply s₂).mono ?_ ?_
  · rintro - s₃ ⟨hrequests, hwhole, hprinted, hmarked⟩
    refine ⟨r, hr, hrequests.trans h₂.requests, reply, hreply, haccepted, hwhole, ?_, hmarked⟩
    rw [hprinted, h₂.printed]
  · rintro s₃ ⟨hrequests, hnot⟩
    refine .inr ⟨r, hr, .inr ⟨hrequests.trans h₂.requests, fun reply' hreply' hconfirms => ?_⟩⟩
    obtain rfl := Http.Answer.reply.inj (hreply.symm.trans hreply')
    exact hnot ⟨hconfirms.whole, hconfirms.marked⟩

lemma Confirmed.of_asked {s₁ : Session} (h : s.Asked [] s₁) (hr : Confirmed s₁ r s') :
    Confirmed s r s' := by
  obtain ⟨hrequests, reply, hreply, hconfirms⟩ := hr
  have hstart : s₁.requests = s.requests := by simpa using h.requests
  rw [hstart] at hrequests hreply
  rw [h.network] at hreply
  exact ⟨hrequests, reply, hreply, hconfirms.accepted, hconfirms.whole,
    by rw [hconfirms.printed, h.printed], hconfirms.marked⟩

lemma Unconfirmed.of_asked {s₁ : Session} (h : s.Asked [] s₁) (hr : Unconfirmed s₁ r s') :
    Unconfirmed s r s' := by
  have hstart : s₁.requests = s.requests := by simpa using h.requests
  rcases hr with hrequests | ⟨hrequests, hnot⟩
  · exact .inl (hrequests.trans hstart)
  · rw [hstart] at hrequests hnot
    rw [h.network] at hnot
    refine .inr ⟨hrequests, fun reply hreply hconfirms => hnot reply hreply ?_⟩
    exact ⟨hconfirms.accepted, hconfirms.whole, by rw [hconfirms.printed, h.printed],
      hconfirms.marked⟩

/-! ### What is uploaded -/

/-- The part of a form that holds the archive. -/
def filePart (archive : Bytes) : Part := ⟨"file", .file archiveName "application/gzip" archive⟩

/-- An archive of some paths that was completed, and all that was written of it. -/
structure Archived (fs : FileSystem) (filesOnly : Bool) (paths : List Path) (archive : Bytes) :
    Prop where
  nonempty : paths ≠ []
  result : (Archive.build fs filesOnly paths .forUpload).result = .ok ()
  received : (Archive.build fs filesOnly paths .forUpload).received = some archive

lemma archived_of_ok {fs : FileSystem} {filesOnly : Bool} {paths : List Path}
    (h : (Archive.build fs filesOnly paths .forUpload).result = .ok ()) :
    Archived fs filesOnly paths
      ((Archive.build fs filesOnly paths .forUpload).received.getD []) := by
  obtain ⟨archive, hreceived⟩ := Archive.exists_received h
  refine ⟨?_, h, by rw [hreceived, Option.getD_some]⟩
  rintro rfl
  simp [Archive.build, Archive.prepare] at h

lemma createArchive_ends (filesOnly : Bool) (paths : List Path) (s : Session) :
    Ends (createArchive filesOnly paths none) s
      (fun archive s' => s.Asked [] s' ∧ Archived s.fs filesOnly paths archive)
      fun s' => s'.requests = s.requests := by
  unfold createArchive
  refine Ends.bind ((Session.Asked.refl s).say _) ?_
  rintro - s₁ h₁
  refine Ends.bind (Q := fun a s' => a = s₁ ∧ s' = s₁) (Ends.get ⟨rfl, rfl⟩) ?_
  rintro _ _ ⟨rfl, rfl⟩
  next s₁ =>
  refine Ends.bind (h₁.tell _) ?_
  rintro - s₂ h₂
  have hbuild : Archive.build s₁.fs filesOnly paths
      { Archive.Options.forUpload with workingDir := none }
      = Archive.build s.fs filesOnly paths .forUpload := by
    rw [h₁.fs]
    rfl
  simp only [hbuild]
  split
  · exact Ends.throw (by simpa using h₂.requests)
  · next hok => exact Ends.pure ⟨h₂, archived_of_ok hok⟩

lemma attachArchive_ends (archive : Bytes) (s : Session) (E : Session → Prop) :
    Ends (attachArchive archive) s (fun part s' => part = filePart archive ∧ s.Asked [] s') E := by
  unfold attachArchive
  refine Ends.bind ((Session.Asked.refl s).say _) ?_
  rintro - s₁ h₁
  refine Ends.bind (h₁.tell _) ?_
  rintro - s₂ h₂
  exact Ends.pure ⟨rfl, h₂⟩

/-- What follows a lookup: one request, with a body that is ready to be sent. -/
def Posts (config : Config) (address : Except Settings.Error String)
    (Ready : FileSystem → Body → Prop) (x : Action ε Unit) : Prop :=
  ∀ s, Ends x s
    (fun _ s' => ∃ r body, Ready s.fs body ∧ Asks config .post address body r ∧ Confirmed s r s')
    fun s' => s'.requests = s.requests
      ∨ ∃ r body, Ready s.fs body ∧ Asks config .post address body r ∧ Unconfirmed s r s'

/-- Notes that came before make no difference. -/
lemma Posts.ends {Ready : FileSystem → Body → Prop} {x : Action ε Unit}
    (hx : Posts config address Ready x) {s₁ : Session} (h₁ : s.Asked [] s₁) :
    Ends x s₁
      (fun _ s' => ∃ r body, Ready s.fs body ∧ Asks config .post address body r ∧ Confirmed s r s')
      fun s' => s'.requests = s.requests
        ∨ ∃ r body, Ready s.fs body ∧ Asks config .post address body r ∧ Unconfirmed s r s' := by
  have hstart : s₁.requests = s.requests := by simpa using h₁.requests
  refine (hx s₁).mono ?_ ?_
  · rintro - s₂ ⟨r, body, hready, hr, hconfirmed⟩
    exact ⟨r, body, h₁.fs ▸ hready, hr, hconfirmed.of_asked h₁⟩
  · rintro s₂ (hrequests | ⟨r, body, hready, hr, hunconfirmed⟩)
    · exact .inl (hrequests.trans hstart)
    · exact .inr ⟨r, body, h₁.fs ▸ hready, hr, hunconfirmed.of_asked h₁⟩

/-- The request is made, and some notes later it is sent. -/
lemma post_ends {Ready : FileSystem → Body → Prop} {s₁ : Session} (h₁ : s.Asked [] s₁)
    (hready : Ready s.fs body)
    (hasks : ∀ r, request = some r → Asks config .post address body r) :
    Ends (send request) s₁
      (fun _ s' => ∃ r body, Ready s.fs body ∧ Asks config .post address body r ∧ Confirmed s r s')
      fun s' => s'.requests = s.requests
        ∨ ∃ r body, Ready s.fs body ∧ Asks config .post address body r ∧ Unconfirmed s r s' := by
  have hstart : s₁.requests = s.requests := by simpa using h₁.requests
  refine (send_ends request s₁).mono ?_ ?_
  · rintro - s₂ ⟨r, hr, hconfirmed⟩
    exact ⟨r, body, hready, hasks r hr, hconfirmed.of_asked h₁⟩
  · rintro s₂ (hrequests | ⟨r, hr, hunconfirmed⟩)
    · exact .inl (hrequests.trans hstart)
    · exact .inr ⟨r, body, hready, hasks r hr, hunconfirmed.of_asked h₁⟩

/-- An archive is made, attached to a form and sent. -/
lemma posts_archive {Ready : FileSystem → Body → Prop} {filesOnly : Bool} {paths : List Path}
    {texts : List Part}
    (hready : ∀ fs archive, Archived fs filesOnly paths archive →
      Ready fs (.parts (texts ++ [filePart archive]))) :
    Posts config address Ready (do
      let archive ← createArchive filesOnly paths none
      let file ← attachArchive archive
      send (← prepare .post address config (.parts (texts ++ [file])))) := by
  intro s
  refine Ends.bind ((createArchive_ends filesOnly paths s).mono (fun _ _ h => h) fun _ => .inl) ?_
  rintro archive s₁ ⟨h₁, harchived⟩
  refine Ends.bind (attachArchive_ends archive s₁ _) ?_
  rintro _ s₂ ⟨rfl, h₂⟩
  have h := h₁.trans h₂
  refine Ends.bind ((prepare_ends _ _ _ _ s₂).mono (fun _ _ h => h) ?_) ?_
  · rintro _ rfl
    exact .inl (by simpa using h.requests)
  · rintro request _ ⟨rfl, hasks⟩
    exact post_ends h (hready s.fs archive harchived) hasks

/-! ### Commands that upload -/

/-- The requests that an upload issues, in their order: the lookup, and then, if the server knows
the application, one with a body that is ready. -/
inductive Issued (config : Config) (app : String) (address : Except Settings.Error String)
    (Ready : FileSystem → Body → Prop) (s : Session) : List Request → Prop
  | nothing : Issued config app address Ready s []
  | lookup {r : Request} (hr : Asks config .get (config.url (applicationPath app)) .empty r) :
    Issued config app address Ready s [r]
  | both {r post : Request} {reply : Reply} {body : Body}
    (hr : Asks config .get (config.url (applicationPath app)) .empty r)
    (accepted : Accepted s r reply) (ready : Ready s.fs body)
    (hpost : Asks config .post address body post) : Issued config app address Ready s [r, post]

/-- The session in which a run has ended. -/
def ending {α : Type} : EStateM.Result ε Session α → Session
  | .ok _ s => s
  | .error _ s => s

/-- What a run of a command that uploads has come to. -/
structure Gated (config : Config) (app : String) (address : Except Settings.Error String)
    (Ready : FileSystem → Body → Prop) (s : Session) (r : EStateM.Result ε Session Unit) :
    Prop where
  /-- The requests issued are the lookup and the upload, or the first of them, or none. -/
  issued : ∃ asked, (ending r).requests = s.requests ++ asked
    ∧ Issued config app address Ready s asked
  /-- Without an address or a token nothing is asked. -/
  silent : config.target = none ∨ config.token = none → (ending r).requests = s.requests
  /-- The run succeeds exactly if the upload was confirmed. -/
  succeeds : (∃ s', r = .ok () s') ↔ ∃ lookup post reply,
    (ending r).requests = s.requests ++ [lookup, post]
      ∧ s.network.answer (s.requests ++ [lookup, post]) = .reply reply
      ∧ Confirms reply s (ending r)

lemma Issued.eq_nil {Ready : FileSystem → Body → Prop} {app : String} {asked : List Request}
    (h : Issued config app address Ready s asked)
    (hnone : config.target = none ∨ config.token = none) : asked = [] := by
  have hlookup : ∀ r, ¬ Asks config .get (config.url (applicationPath app)) .empty r := by
    intro r hr
    obtain ⟨token, htoken, -⟩ := hr.authorization
    obtain ⟨text, url, htext, -⟩ := hr.url
    rcases hnone with hnone | hnone
    · simp [Settings.Config.url, hnone] at htext
    · simp [hnone] at htoken
  cases h with
  | nothing => rfl
  | lookup hr => exact absurd hr (hlookup _)
  | both hr accepted ready hpost => exact absurd hr (hlookup _)

/-- What is left to be shown of a run, by the way it ends. -/
lemma gated_of_ends {Ready : FileSystem → Body → Prop} {app : String} {x : Action ε Unit}
    (h : Ends x s
      (fun _ s' => ∃ lookup post, Issued config app address Ready s [lookup, post]
        ∧ s'.requests = s.requests ++ [lookup, post] ∧ ∃ reply,
          s.network.answer (s.requests ++ [lookup, post]) = .reply reply ∧ Confirms reply s s')
      fun s' => ∃ asked, Issued config app address Ready s asked
        ∧ s'.requests = s.requests ++ asked ∧ ∀ lookup post reply, asked = [lookup, post] →
          s.network.answer (s.requests ++ [lookup, post]) = .reply reply → ¬ Confirms reply s s') :
    Gated config app address Ready s (x s) := by
  unfold Ends at h
  rcases hx : x s with ⟨_, s'⟩ | ⟨e, s'⟩
  · rw [hx] at h
    obtain ⟨lookup, post, hissued, hrequests, reply, hreply, hconfirms⟩ := h
    refine ⟨⟨_, hrequests, hissued⟩, fun hnone => ?_, ?_⟩
    · exact absurd (hissued.eq_nil hnone) (by simp)
    · exact ⟨fun _ => ⟨lookup, post, reply, hrequests, hreply, hconfirms⟩, fun _ => ⟨s', rfl⟩⟩
  · rw [hx] at h
    obtain ⟨asked, hissued, hrequests, hnot⟩ := h
    refine ⟨⟨asked, hrequests, hissued⟩, fun hnone => ?_, by simp, ?_⟩
    · rw [ending, hrequests, hissued.eq_nil hnone, List.append_nil]
    · rintro ⟨lookup, post, reply, hboth, hreply, hconfirms⟩
      have hasked : asked = [lookup, post] :=
        List.append_cancel_left (hrequests.symm.trans hboth)
      exact absurd hconfirms (hnot lookup post reply hasked hreply)

/-- **A lookup, and then an upload.** -/
lemma gated_of_posts {Ready : FileSystem → Body → Prop} {app : String}
    {x : Action ε Unit} (f : Error → ε) (hx : Posts config address Ready x) (s : Session) :
    Gated config app address Ready s
      ((do (ensureAppExists config app).wrap f; x : Action ε Unit) s) := by
  refine gated_of_ends (Ends.bind
    ((Ends.wrap f (ensureAppExists_ends config app s)).mono (fun _ _ h => h) ?_) ?_)
  · rintro s₁ (hrequests | ⟨r, hr, hrequests⟩)
    · exact ⟨[], .nothing, by simpa using hrequests, by simp⟩
    · exact ⟨[r], .lookup hr, hrequests, by simp⟩
  · rintro - s₁ ⟨r, reply, hr, h₁, haccepted⟩
    have hboth : ∀ post, s₁.requests ++ [post] = s.requests ++ [r, post] := by
      intro post
      rw [h₁.requests, List.append_assoc]
      rfl
    -- what follows starts with the lookup issued and nothing printed
    have hconfirms : ∀ reply' s', Confirms reply' s₁ s' ↔ Confirms reply' s s' := by
      intro reply' s'
      constructor <;> rintro ⟨haccepted, hwhole, hprinted, hmarked⟩
      · exact ⟨haccepted, hwhole, h₁.printed ▸ hprinted, hmarked⟩
      · exact ⟨haccepted, hwhole, h₁.printed ▸ hprinted, hmarked⟩
    refine (hx s₁).mono ?_ ?_
    · rintro - s' ⟨post, body, hready, hpost, hrequests, reply', hreply', hconfirmed⟩
      rw [h₁.fs] at hready
      rw [hboth] at hrequests hreply'
      rw [h₁.network] at hreply'
      exact ⟨r, post, .both hr haccepted hready hpost, hrequests, reply', hreply',
        (hconfirms _ _).mp hconfirmed⟩
    · rintro s' (hrequests | ⟨post, body, hready, hpost, hrequests | ⟨hrequests, hnot⟩⟩)
      · exact ⟨[r], .lookup hr, hrequests.trans h₁.requests, by simp⟩
      · exact ⟨[r], .lookup hr, hrequests.trans h₁.requests, by simp⟩
      · rw [h₁.fs] at hready
        rw [hboth] at hrequests hnot
        rw [h₁.network] at hnot
        refine ⟨[r, post], .both hr haccepted hready hpost, hrequests, ?_⟩
        rintro lookup' post' reply' heq hreply' hconfirmed
        obtain ⟨rfl, hposts⟩ := List.cons.inj heq
        obtain ⟨rfl, -⟩ := List.cons.inj hposts
        exact hnot reply' hreply' ((hconfirms _ _).mpr hconfirmed)

end Upload

/-! ### Deploying -/

namespace Deploy

open Upload

variable {d : Deploy} {config : Config}

/-- Either an image is deployed and nothing else, or files are, and then there is something that
tells which. -/
def Valid (d : Deploy) : Prop :=
  d.image.isSome ∧ d.containerFile = none ∧ d.paths = []
    ∨ d.image = none ∧ (d.containerFile.isSome ∨ d.paths ≠ [])

/-- The container file that a path leads to, if one is given. -/
inductive Resolves (fs : FileSystem) (app : String) : Option Path → Option ContainerFile → Prop
  | none : Resolves fs app none none
  | some {path : Path} {c : ContainerFile} (h : (ContainerFile.resolve fs app path).1 = .ok c) :
    Resolves fs app (some path) (some c)

/-- What a deployment sends: the name of an image, or an archive that was made of the files. -/
inductive Ready (d : Deploy) (fs : FileSystem) : Body → Prop
  | image {name : String} (source : d.source = .ok (.image name)) :
    Ready d fs (.fields (d.imageFields name))
  | files {containerFile : Option Path} {paths : List Path} {c : Option ContainerFile}
    {archive : Bytes} (source : d.source = .ok (.files containerFile paths))
    (resolves : Resolves fs d.app containerFile c)
    (archived : Archived fs d.filesOnly (deployedPaths c paths) archive) :
    Ready d fs (.parts ((d.fileFields c).map (fun f => textPart f.1 f.2) ++ [filePart archive]))

lemma exists_source_iff : (∃ source, d.source = .ok source) ↔ d.Valid := by
  unfold source Valid
  rcases d.image with _ | image <;> rcases d.containerFile with _ | c <;>
    rcases d.paths with _ | ⟨p, ps⟩ <;> simp

lemma posts_deployImage {name : String} (h : d.source = .ok (.image name)) :
    Posts config (d.address config) d.Ready (d.deployImage config name) := by
  intro s
  unfold deployImage
  refine Ends.bind ((prepare_ends _ _ _ _ s).mono (fun _ _ h => h) ?_) ?_
  · rintro _ rfl
    exact .inl rfl
  rintro request _ ⟨rfl, hasks⟩
  next s =>
  refine Ends.bind ((Session.Asked.refl s).tell _) ?_
  rintro - s₁ h₁
  refine Ends.bind (h₁.say _) ?_
  rintro - s₂ h₂
  exact post_ends h₂ (.image h) hasks

lemma posts_files {containerFile : Option Path} {paths : List Path}
    (h : d.source = .ok (.files containerFile paths)) :
    Posts config (d.address config) d.Ready (do
      let c ← d.resolveContainerFile containerFile
      (d.deployFiles config c paths).wrap Error.upload) := by
  intro s
  refine Ends.bind (Q := fun c s' => s.Asked [] s' ∧ Resolves s.fs d.app containerFile c) ?_ ?_
  · unfold resolveContainerFile
    split
    · exact Ends.pure ⟨.refl s, .none⟩
    · next path =>
      refine Ends.bind (Q := fun a s' => a = s ∧ s' = s) (Ends.get ⟨rfl, rfl⟩) ?_
      rintro _ _ ⟨rfl, rfl⟩
      next s =>
      refine Ends.bind ((Session.Asked.refl s).tell _) ?_
      rintro - s₁ h₁
      refine Ends.bind
        (Q := fun c s' => s' = s₁ ∧ (ContainerFile.resolve s.fs d.app path).1 = .ok c)
        (Ends.wrap _ (Ends.ofExcept (fun c hc => ⟨rfl, hc⟩) fun _ _ => ?_)) ?_
      · exact .inl (by simpa using h₁.requests)
      · rintro c _ ⟨rfl, hc⟩
        exact Ends.pure ⟨h₁, .some hc⟩
  · rintro c s₁ ⟨h₁, hc⟩
    have hposts : Posts config (d.address config)
        (fun fs body => Resolves fs d.app containerFile c → d.Ready fs body)
        (d.deployFiles config c paths) :=
      posts_archive fun fs archive harchived hc => .files h hc harchived
    refine Ends.wrap _ ((hposts.ends h₁).mono ?_ ?_)
    · rintro - s' ⟨r, body, hready, hr⟩
      exact ⟨r, body, hready hc, hr⟩
    · rintro s' (hrequests | ⟨r, body, hready, hr⟩)
      · exact .inl hrequests
      · exact .inr ⟨r, body, hready hc, hr⟩

lemma run_gated (d : Deploy) (config : Config) (s : Session) :
    Gated config d.app (d.address config) d.Ready s (d.run config s)
      ∧ (¬ d.Valid → (ending (d.run config s)).requests = s.requests) := by
  rcases hsource : d.source with e | source
  · have hrun : d.run config s = .error e s := by
      unfold run
      rw [hsource]
      rfl
    rw [hrun]
    refine ⟨⟨⟨[], by simp [ending], .nothing⟩, fun _ => rfl, by simp, ?_⟩, fun _ => rfl⟩
    rintro ⟨lookup, post, reply, hrequests, -⟩
    simp [ending] at hrequests
  · refine ⟨?_, fun hnot => absurd (exists_source_iff.mp ⟨source, hsource⟩) hnot⟩
    cases source with
    | image image =>
      have hrun : d.run config s = (do
          (ensureAppExists config d.app).wrap Error.upload
          (d.deployImage config image).wrap Error.upload : Action Error Unit) s := by
        unfold run
        rw [hsource]
        rfl
      rw [hrun]
      exact gated_of_posts Error.upload (fun s => Ends.wrap _ (posts_deployImage hsource s)) s
    | files containerFile paths =>
      have hrun : d.run config s = (do
          (ensureAppExists config d.app).wrap Error.upload
          (do
            let c ← d.resolveContainerFile containerFile
            (d.deployFiles config c paths).wrap Error.upload) : Action Error Unit) s := by
        unfold run
        rw [hsource]
        rfl
      rw [hrun]
      exact gated_of_posts Error.upload (posts_files hsource) s

end Deploy

/-! ### Building images -/

namespace BuildImage

open Upload

/-- What a build sends: the tag, and an archive that was made of the files. -/
inductive Ready (b : BuildImage) (fs : FileSystem) : Body → Prop
  | mk {archive : Bytes} (archived : Archived fs b.filesOnly b.paths archive) :
    Ready b fs (.parts [textPart "tag" b.tag, filePart archive])

def address (b : BuildImage) (config : Config) : Except Settings.Error String :=
  config.versionedUrl endpointVersion (applicationPath b.app ++ "/build")

/-- Nothing is left of a blank text, and something of any other. -/
lemma trim_eq_nil_iff {cs : List Char} :
    (Text.trim cs).isEmpty = true ↔ ∀ c ∈ cs, Text.isBlank c = true := by
  rw [List.isEmpty_iff, Text.trim, Text.trimEnd, List.reverse_eq_nil_iff,
    List.dropWhile_eq_nil_iff]
  simp only [List.mem_reverse, Text.trimStart]
  constructor
  · intro h c hc
    rw [← List.takeWhile_append_dropWhile (p := Text.isBlank) (l := cs)] at hc
    rcases List.mem_append.mp hc with hc | hc
    · exact List.mem_takeWhile_imp hc
    · exact h c hc
  · intro h c hc
    exact h c ((List.dropWhile_sublist _).subset hc)

lemma run_gated (b : BuildImage) (config : Config) (s : Session) :
    Gated config b.app (b.address config) b.Ready s (b.run config s)
      ∧ ((∀ c ∈ b.tag.toList, Text.isBlank c = true) →
        (ending (b.run config s)).requests = s.requests) := by
  by_cases hblank : (Text.trim b.tag.toList).isEmpty = true
  · have hrun : b.run config s = .error .emptyTag s := by
      unfold run
      rw [if_pos hblank]
      rfl
    rw [hrun]
    refine ⟨⟨⟨[], by simp [ending], .nothing⟩, fun _ => rfl, by simp, ?_⟩, fun _ => rfl⟩
    rintro ⟨lookup, post, reply, hrequests, -⟩
    simp [ending] at hrequests
  · refine ⟨?_, fun h => absurd (trim_eq_nil_iff.mpr h) hblank⟩
    have hrun : b.run config s = (do
        (ensureAppExists config b.app).wrap Error.upload
        (do
          let archive ← createArchive b.filesOnly b.paths none
          let file ← attachArchive archive
          send (← Upload.prepare .post (b.address config) config
            (.parts ([textPart "tag" b.tag] ++ [file])))).wrap Error.upload
          : Action Error Unit) s := by
      unfold run
      rw [if_neg hblank]
      show (b.perform config).wrap Error.upload s = _
      rw [perform, Action.wrap_bind]
      rfl
    rw [hrun]
    refine gated_of_posts Error.upload (fun s => Ends.wrap _ (posts_archive ?_ s)) s
    exact fun fs archive harchived => .mk harchived

end BuildImage

/-- **Nothing is uploaded that has not been checked.** A deployment or a build looks up its
application and then, if the server knows it, sends what was put together without an error, each
time with the token of the configuration. It asks nothing if its arguments or the configuration
rule it out, and it succeeds exactly if the reply has confirmed it. -/
theorem uploads_gated :
    (∀ (d : Deploy) (config : Config) (s : Session),
      Upload.Gated config d.app (d.address config) d.Ready s (d.run config s)
        ∧ (¬ d.Valid → (Upload.ending (d.run config s)).requests = s.requests))
    ∧ ∀ (b : BuildImage) (config : Config) (s : Session),
      Upload.Gated config b.app (b.address config) b.Ready s (b.run config s)
        ∧ ((∀ c ∈ b.tag.toList, Text.isBlank c = true) →
          (Upload.ending (b.run config s)).requests = s.requests) :=
  ⟨fun d config s => d.run_gated config s, fun b config s => b.run_gated config s⟩

/-- A status beyond those that tell of errors: the lookup passes with it, and so does the upload,
which then succeeds. -/
theorem uploads_not_gated_by_status :
    let d : Deploy := ⟨"web", some "img", none, none, false, []⟩
    let config : Config := ⟨some "http://h", some "t", .warn⟩
    let network : Http.Network := ⟨.domain ['h'], 80, fun _ =>
      .reply ⟨600, [.data (Bytes.ofText "\nOK\n")]⟩⟩
    let s := Session.new ⟨.directory ⟨0o755, 0, .root⟩ [], [], 0, .root⟩ network
    ∃ lookup post reply, network.answer [lookup] = .reply reply ∧ ¬ reply.status < 400
      ∧ (Upload.ending (d.run config s)).requests = [lookup, post] ∧ post.method = .post
      ∧ network.answer [lookup, post] = .reply reply ∧ ∃ s', d.run config s = .ok () s' := by
  intro d config network s
  have hmethods : (Upload.ending (d.run config s)).requests.map Request.method = [.get, .post] := by
    decide +kernel
  have hok : (match d.run config s with
    | .ok .. => true
    | .error .. => false) = true := by decide +kernel
  obtain ⟨lookup, rest, hrequests, -, hrest⟩ := List.map_eq_cons_iff.mp hmethods
  obtain ⟨post, hrest, hpost⟩ := List.map_eq_singleton_iff.mp hrest
  refine ⟨lookup, post, _, rfl, by decide, by rw [hrequests, hrest], hpost, rfl, ?_⟩
  rcases hrun : d.run config s with ⟨_, s'⟩ | ⟨e, s'⟩
  · exact ⟨s', rfl⟩
  · simp [hrun] at hok

end DeployClient
