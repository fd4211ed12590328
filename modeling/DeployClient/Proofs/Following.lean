import DeployClient.Upload
import Mathlib.Data.List.Basic
import Mathlib.Tactic.Lemma

/-!
Following a reply, however it is cut into pieces.

Of what has been read only the end is kept, as long as the marker. Each piece leaves it the end of
all that has been read so far, so in the end the marker is found exactly if the whole ends with it.
A reply ends where its readings end; a reading of data brings at least one byte.
-/

namespace DeployClient.Upload

open Http (Reading Reply)

variable {front rest : List Reading} {e : IoError}

/-! ### What arrives -/

/-- All that the readings bring. -/
def bytesOf : List Reading → Bytes
  | [] => []
  | .data bytes :: rest => bytes ++ bytesOf rest
  | _ :: rest => bytesOf rest

def failureOf? : Reading → Option IoError
  | .failed e => some e
  | _ => none

/-- The failure that reading ends with. -/
def failure? (readings : List Reading) : Option IoError := readings.findSome? failureOf?

/-- What has arrived when reading ends. -/
def received (readings : List Reading) : Bytes :=
  bytesOf (readings.takeWhile fun r => (failureOf? r).isNone)

lemma bytesOf_append (front rest : List Reading) :
    bytesOf (front ++ rest) = bytesOf front ++ bytesOf rest := by
  induction front with
  | nil => rfl
  | cons reading front ih => cases reading <;> simp [bytesOf, ih]

lemma failure?_eq_none_iff : failure? front = none ↔ ∀ e, .failed e ∉ front := by
  rw [failure?, List.findSome?_eq_none_iff]
  constructor
  · intro h e he
    simpa [failureOf?] using h _ he
  · intro h reading hr
    cases reading with
    | failed e => exact absurd hr (h e)
    | _ => rfl

lemma received_append (h : failure? front = none) (rest : List Reading) :
    received (front ++ rest) = bytesOf front ++ received rest := by
  rw [failure?, List.findSome?_eq_none_iff] at h
  rw [received, List.takeWhile_append_of_pos fun r hr => by simp [h r hr], bytesOf_append]
  rfl

lemma received_of_whole (h : failure? front = none) : received front = bytesOf front := by
  simpa [received, bytesOf] using received_append h []

/-! ### What is kept -/

lemma keepTail_keepTail (tail first second : Bytes) :
    keepTail (keepTail tail first) second = keepTail tail (first ++ second) := by
  have hsplit : keepTail tail first ++ second = (tail ++ first ++ second).drop
      ((tail ++ first).length - successMarker.length) := by
    rw [keepTail, List.drop_append_of_le_length (Nat.sub_le _ _)]
  rw [keepTail.eq_1 (keepTail tail first), hsplit, List.drop_drop, keepTail, ← List.append_assoc]
  congr 1
  simp only [List.length_drop, List.length_append]
  omega

/-- What is kept of a text is the marker exactly if the text ends with it. -/
lemma keepTail_eq_marker_iff {text : Bytes} :
    keepTail [] text = successMarker ↔ successMarker <:+ text := by
  rw [keepTail, List.nil_append, List.suffix_iff_eq_drop, eq_comm]

/-- After any readings, what is kept is the end of all that they have brought, and all of that has
been written. -/
lemma follow_append (seen : Bytes) (h : failure? front = none) (rest : List Reading) :
    follow (keepTail [] seen) (front ++ rest)
      = ⟨bytesOf front ++ (follow (keepTail [] (seen ++ bytesOf front)) rest).written,
        (follow (keepTail [] (seen ++ bytesOf front)) rest).result⟩ := by
  induction front generalizing seen with
  | nil => simp [bytesOf]
  | cons reading front ih =>
    cases reading with
    | data bytes =>
      have hfront : failure? front = none := h
      rw [List.cons_append, follow, keepTail_keepTail, ih _ hfront, bytesOf]
      simp only [List.append_assoc]
    | interrupted =>
      have hfront : failure? front = none := h
      rw [List.cons_append, follow, ih _ hfront]
      rfl
    | failed e => simp [failure?, failureOf?] at h

/-- What following comes to, from what was seen before. -/
theorem follow_eq (seen : Bytes) (readings : List Reading) :
    follow (keepTail [] seen) readings
      = ⟨received readings,
        match failure? readings with
        | some e => .error e
        | none => .ok (decide (successMarker <:+ seen ++ received readings))⟩ := by
  cases hfailure : failure? readings with
  | none =>
    have hrun := follow_append seen hfailure []
    rw [List.append_nil] at hrun
    rw [hrun, received_of_whole hfailure]
    simp [follow, keepTail_eq_marker_iff]
  | some e =>
    -- up to the failure the readings only bring data
    obtain ⟨front, reading, rest, rfl, hreading, hfront⟩ :=
      List.findSome?_eq_some_iff.mp hfailure
    have hnone : failure? front = none := List.findSome?_eq_none_iff.mpr hfront
    obtain rfl : reading = .failed e := by
      cases reading with
      | failed e' => exact congrArg Reading.failed (Option.some.inj hreading)
      | _ => simp [failureOf?] at hreading
    rw [follow_append seen hnone, received_append hnone]
    simp [follow, received, bytesOf, failureOf?]

lemma follow_nil_eq (readings : List Reading) :
    follow [] readings
      = ⟨received readings,
        match failure? readings with
        | some e => .error e
        | none => .ok (decide (successMarker <:+ received readings))⟩ := follow_eq [] readings

/-! ### Receiving a reply -/

/-- The session once this has been printed. -/
def printing (s : Session) (data : Bytes) : Session := { s with printed := s.printed ++ data }

lemma receive_of_follow {reply : Reply} {f : Following} (h : follow [] reply.content = f)
    (s : Session) : receive reply s
      = match f.result with
        | .error e => .error (.io e) (printing s f.written)
        | .ok false => .error .aborted (printing s f.written)
        | .ok true => .ok () (printing s f.written) := by
  have hprint : receive reply s = (match f.result with
      | .error e => throw (.io e)
      | .ok false => throw .aborted
      | .ok true => return () : Action Error Unit) (printing s f.written) := by
    rw [← h]
    rfl
  rw [hprint]
  rcases f.result with e | _ | _ <;> rfl

/-- All that has arrived is printed, whatever receiving comes to. -/
lemma receive_eq (reply : Reply) (s : Session) :
    receive reply s
      = match failure? reply.content with
        | some e => .error (.io e) (printing s (received reply.content))
        | none =>
          if successMarker <:+ received reply.content then
            .ok () (printing s (received reply.content))
          else .error .aborted (printing s (received reply.content)) := by
  rw [receive_of_follow (follow_nil_eq reply.content)]
  cases failure? reply.content with
  | some e => rfl
  | none =>
    by_cases hmarked : successMarker <:+ received reply.content
    · simp only [hmarked, decide_true, if_true]
    · simp only [hmarked, decide_false, if_false]

/-- **A reply is followed however it is cut.** What arrives is written in its order, up to the
failure that reading ends with or to the end of the reply, and only there is it asked whether the
whole ends with the marker. -/
theorem reply_followed (readings : List Reading) :
    follow [] readings
      = ⟨received readings,
        match failure? readings with
        | some e => .error e
        | none => .ok (decide (successMarker <:+ received readings))⟩
    ∧ (∀ front rest, readings = front ++ rest → failure? front = none →
      bytesOf front <+: (follow [] readings).written)
    ∧ (∀ other, received other = received readings → failure? other = failure? readings →
      follow [] other = follow [] readings)
    ∧ ∀ (reply : Reply) (s : Session), reply.content = readings →
      receive reply s
        = match failure? readings with
          | some e => .error (.io e) (printing s (received readings))
          | none =>
            if successMarker <:+ received readings then .ok () (printing s (received readings))
            else .error .aborted (printing s (received readings)) := by
  refine ⟨follow_nil_eq readings, ?_, ?_, ?_⟩
  · rintro front rest rfl hfront
    rw [follow_nil_eq, received_append hfront]
    exact List.prefix_append _ _
  · intro other hreceived hfailure
    rw [follow_nil_eq, follow_nil_eq, hreceived, hfailure]
  · rintro reply s rfl
    exact receive_eq reply s

/-- The marker arrives in three pieces, and then the connection is cut. -/
theorem reply_followed_cut :
    let front : List Reading := [.data (Bytes.ofText "log\n"), .interrupted,
      .data (Bytes.ofText "O"), .data (Bytes.ofText "K\n")]
    let cut : List Reading := front ++ [.failed .connectionCut, .data (Bytes.ofText "!")]
    follow [] front = ⟨Bytes.ofText "log\nOK\n", .ok true⟩
      ∧ follow [] cut = ⟨Bytes.ofText "log\nOK\n", .error .connectionCut⟩
      ∧ bytesOf front <+: (follow [] cut).written
      ∧ follow [] [.data (Bytes.ofText "log\nOK\n")] = follow [] front
      ∧ ∀ s : Session, receive ⟨200, cut⟩ s
        = .error (.io .connectionCut) (printing s (Bytes.ofText "log\nOK\n")) := by
  intro front cut
  refine ⟨(reply_followed front).1, (reply_followed cut).1,
    (reply_followed cut).2.1 front _ rfl rfl, (reply_followed front).2.2.1 _ rfl rfl,
    fun s => (reply_followed cut).2.2.2 ⟨200, cut⟩ s rfl⟩

end DeployClient.Upload
