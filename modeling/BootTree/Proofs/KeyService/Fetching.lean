import BootTree.KeyService.Identity

/-!
# BootTree.Proofs.KeyService.Fetching

Fetching the identity of the key service. The header and the payload of the answer are stored in two
buffers, of which the second may be too small for it; so the length that the transport reports says
more than what was stored. The checks are made in one order, and the first one that fails decides the
error, for every transport and every answer.

* `KeyService.Session.Answers`: what the transport answers to the request.
* `KeyService.Session.FirstFailure`: the first check that an answer does not pass.
* `KeyService.Session.Accepted`: an answer that passes all of them.
* `KeyService.Session.fetch_of_answer`: what is fetched, by what is answered.
* `KeyService.Session.fetch_iff`: when an identity is fetched, and which error there is otherwise.
* `KeyService.Session.Delivers`: the transport answers with a payload behind a good header.
-/

namespace BootTree

namespace KeyService

/-! ## What is stored -/

/-- A reply that fits into the buffers stands at their front. -/
theorem Reply.fill_of_le {reply : Reply} {buffers : Bytes}
    (h : reply.stored.length ≤ buffers.length) :
    reply.fill buffers = reply.stored ++ buffers.drop reply.stored.length := by
  refine List.take_of_length_le ?_
  rw [List.length_append, List.length_drop]
  omega

/-- The header of a response and the buffer behind it, after a reply was stored in them. -/
def Reply.memory (reply : Reply) (buffer : Bytes) : Bytes :=
  reply.fill (Bytes.zeros Response.headerSize ++ buffer)

/-- A message that was stored in the buffers in order, as far as it fits, and its whole length. -/
def Reply.scattered (message : Bytes) (capacity : Nat) : Reply :=
  ⟨message.length, message.take (Response.headerSize + capacity)⟩

theorem Reply.isPrefix_memory_scattered {message buffer : Bytes}
    (h : message.length ≤ Response.headerSize + buffer.length) :
    message <+: (scattered message buffer.length).memory buffer := by
  have hstored : (scattered message buffer.length).stored = message := List.take_of_length_le h
  have hle : message.length ≤ (Bytes.zeros Response.headerSize ++ buffer).length := by
    rwa [List.length_append, Bytes.length_zeros]
  rw [memory, fill_of_le (by rwa [hstored]), hstored]
  exact List.prefix_append _ _

namespace Response

theorem read?_of_isPrefix {response : Response} {bytes : Bytes} (h : response.encode <+: bytes) :
    read? bytes = some response := by
  obtain ⟨rest, rfl⟩ := h
  exact read?_encode_append response rest

/-- Any bytes that are long enough begin with a header. -/
theorem exists_isPrefix {bytes : Bytes} (h : headerSize ≤ bytes.length) :
    ∃ response : Response, response.encode <+: bytes := by
  rw [headerSize] at h
  obtain ⟨command, hcommand⟩ := Option.isSome_iff_exists.1
    (Bytes.word?_isSome_iff.2 (show 4 ≤ bytes.length by omega))
  obtain ⟨status, hstatus⟩ := Option.isSome_iff_exists.1
    (Bytes.word?_isSome_iff.2 (show 4 ≤ (bytes.drop 4).length by rw [List.length_drop]; omega))
  refine ⟨⟨command, status⟩, (bytes.drop 4).drop 4, ?_⟩
  rw [encode, List.append_assoc, ← Bytes.eq_word_append_of_word? hstatus,
    ← Bytes.eq_word_append_of_word? hcommand]

end Response

theorem Reply.exists_header (reply : Reply) (buffer : Bytes) :
    ∃ response : Response, response.encode <+: reply.memory buffer := by
  apply Response.exists_isPrefix
  rw [memory, length_fill, List.length_append, Bytes.length_zeros]
  exact Nat.le_add_right _ _

namespace Session

variable {session : Session} {buffer : Bytes} {reply : Reply} {response : Response}

/-! ## Answers and checks -/

/-- The transport takes the request for the identity, and this is what it answers when a response is
asked for, with a buffer of `capacity` bytes behind the header. -/
structure Answers (session : Session) (capacity : Nat) (answer : Except IpcError Reply) : Prop where
  sent : session.transport.send session.past (Request.encode ⟨getIdentity⟩) = .ok ()
  received : session.transport.receive (session.past ++ [.sent (Request.encode ⟨getIdentity⟩)])
    [Response.headerSize, capacity] = answer

/-- The first thing that goes wrong. -/
inductive FirstFailure (session : Session) (buffer : Bytes) : KeyError → Prop where
  | send {e : IpcError} :
      session.transport.send session.past (Request.encode ⟨getIdentity⟩) = .error e →
      FirstFailure session buffer (.ipc e)
  | receive {e : IpcError} : session.Answers buffer.length (.error e) →
      FirstFailure session buffer (.ipc e)
  | short {reply : Reply} : session.Answers buffer.length (.ok reply) → reply.length < 8 →
      FirstFailure session buffer (.shortResponse reply.length)
  | unexpected {reply : Reply} {response : Response} :
      session.Answers buffer.length (.ok reply) → 8 ≤ reply.length →
      response.encode <+: reply.memory buffer → response.command ≠ 0x80000001 →
      FirstFailure session buffer (.unexpectedResponse response.command)
  | service {reply : Reply} {status : UInt32} :
      session.Answers buffer.length (.ok reply) → 8 ≤ reply.length →
      Response.encode ⟨0x80000001, status⟩ <+: reply.memory buffer → status ≠ 0 →
      FirstFailure session buffer (.service status)
  | tooLarge {reply : Reply} :
      session.Answers buffer.length (.ok reply) → 8 ≤ reply.length →
      Response.encode ⟨0x80000001, 0⟩ <+: reply.memory buffer →
      buffer.length < reply.length - 8 →
      FirstFailure session buffer (.payloadTooLarge (reply.length - 8))

/-- An answer that passes all checks, with a payload of so many bytes. -/
structure Accepted (session : Session) (buffer : Bytes) (reply : Reply) (length : Nat) : Prop where
  answers : session.Answers buffer.length (.ok reply)
  long : 8 ≤ reply.length
  header : Response.encode ⟨0x80000001, 0⟩ <+: reply.memory buffer
  length_eq : length = reply.length - 8
  fits : length ≤ buffer.length

/-! ## Outcomes -/

theorem fetch_of_send_error {e : IpcError}
    (h : session.transport.send session.past (Request.encode ⟨getIdentity⟩) = .error e) :
    (session.fetch buffer).value.1 = .error (.ipc e) ∧
      Event.traffic (session.fetch buffer).events = [.sent (Request.encode ⟨getIdentity⟩)] := by
  simp only [fetch, Reported.value_bind, Reported.events_bind, h]
  exact ⟨rfl, rfl⟩

theorem fetch_of_receive_error {e : IpcError} (h : session.Answers buffer.length (.error e)) :
    (session.fetch buffer).value.1 = .error (.ipc e) ∧
      Event.traffic (session.fetch buffer).events =
        [.sent (Request.encode ⟨getIdentity⟩), .received [Response.headerSize, buffer.length]] := by
  simp only [fetch, receive, Reported.value_bind, Reported.events_bind, h.sent, h.received]
  exact ⟨rfl, rfl⟩

/-- An answer is judged by the header that it begins with. -/
theorem fetch_of_answer (h : session.Answers buffer.length (.ok reply))
    (hheader : response.encode <+: reply.memory buffer) :
    (session.fetch buffer).value.1 =
        (judge ⟨getIdentity⟩ buffer.length reply response).map
          (⟨·, (reply.memory buffer).drop Response.headerSize⟩) ∧
      Event.traffic (session.fetch buffer).events =
        [.sent (Request.encode ⟨getIdentity⟩), .received [Response.headerSize, buffer.length]] := by
  have hread := Response.read?_of_isPrefix hheader
  rw [Reply.memory] at hread ⊢
  simp only [fetch, receive, Reported.value_bind, Reported.events_bind, h.sent, h.received, hread,
    Option.getD_some]
  cases judge ⟨getIdentity⟩ buffer.length reply response with
  | ok length => exact ⟨rfl, rfl⟩
  | error e => exact ⟨rfl, by cases e <;> rfl⟩

theorem fetch_of_accepted {length : Nat} (h : session.Accepted buffer reply length) :
    (session.fetch buffer).value.1 =
      .ok ⟨length, (reply.memory buffer).drop Response.headerSize⟩ := by
  have hlong := h.long
  have hlength := h.length_eq
  have hfits := h.fits
  have hcommand : (0x80000001 : UInt32) = Request.responseCommand ⟨getIdentity⟩ := rfl
  rw [(fetch_of_answer h.answers h.header).1, judge, Response.headerSize, if_neg (by omega),
    if_neg (not_not_intro hcommand), if_neg (not_not_intro rfl), if_neg (by omega), hlength]
  rfl

theorem fetch_of_firstFailure {e : KeyError} (h : session.FirstFailure buffer e) :
    (session.fetch buffer).value.1 = .error e := by
  have hcommand : Request.responseCommand ⟨getIdentity⟩ = 0x80000001 := rfl
  cases h with
  | send hsend => exact (fetch_of_send_error hsend).1
  | receive hanswers => exact (fetch_of_receive_error hanswers).1
  | @short reply hanswers hshort =>
    obtain ⟨response, hheader⟩ := reply.exists_header buffer
    rw [(fetch_of_answer hanswers hheader).1, judge, Response.headerSize, if_pos hshort]
    rfl
  | unexpected hanswers hlong hheader hne =>
    rw [(fetch_of_answer hanswers hheader).1, judge, Response.headerSize, if_neg (by omega),
      if_pos (by rwa [hcommand])]
    rfl
  | service hanswers hlong hheader hstatus =>
    rw [(fetch_of_answer hanswers hheader).1, judge, Response.headerSize, if_neg (by omega),
      if_neg (not_not_intro hcommand.symm), if_pos hstatus]
    rfl
  | tooLarge hanswers hlong hheader hlarge =>
    rw [(fetch_of_answer hanswers hheader).1, judge, Response.headerSize, if_neg (by omega),
      if_neg (not_not_intro hcommand.symm), if_neg (not_not_intro rfl), if_pos hlarge]
    rfl

/-- Every answer passes all checks, or there is a first one that it does not pass. -/
theorem exists_outcome (session : Session) (buffer : Bytes) :
    (∃ e, session.FirstFailure buffer e) ∨ ∃ reply length, session.Accepted buffer reply length := by
  cases hsend : session.transport.send session.past (Request.encode ⟨getIdentity⟩) with
  | error e => exact .inl ⟨_, .send hsend⟩
  | ok _ =>
    cases hreceive : session.transport.receive
        (session.past ++ [.sent (Request.encode ⟨getIdentity⟩)])
        [Response.headerSize, buffer.length] with
    | error e => exact .inl ⟨_, .receive ⟨hsend, hreceive⟩⟩
    | ok reply =>
      have hanswers : session.Answers buffer.length (.ok reply) := ⟨hsend, hreceive⟩
      by_cases hlong : 8 ≤ reply.length
      · obtain ⟨⟨command, status⟩, hheader⟩ := reply.exists_header buffer
        by_cases hcommand : command = 0x80000001
        · subst hcommand
          by_cases hstatus : status = 0
          · subst hstatus
            by_cases hfits : reply.length - 8 ≤ buffer.length
            · exact .inr ⟨reply, _, hanswers, hlong, hheader, rfl, hfits⟩
            · exact .inl ⟨_, .tooLarge hanswers hlong hheader (Nat.lt_of_not_le hfits)⟩
          · exact .inl ⟨_, .service hanswers hlong hheader hstatus⟩
        · exact .inl ⟨_, .unexpected hanswers hlong hheader hcommand⟩
      · exact .inl ⟨_, .short hanswers (Nat.lt_of_not_le hlong)⟩

theorem fetch_eq_ok_iff {identity : Identity} :
    (session.fetch buffer).value.1 = .ok identity ↔
      ∃ reply, session.Accepted buffer reply identity.length ∧
        identity.buffer = (reply.memory buffer).drop Response.headerSize := by
  constructor
  · intro hok
    rcases session.exists_outcome buffer with ⟨e, hfailure⟩ | ⟨reply, length, haccepted⟩
    · rw [fetch_of_firstFailure hfailure] at hok
      cases hok
    · rw [fetch_of_accepted haccepted] at hok
      cases hok
      exact ⟨reply, haccepted, rfl⟩
  · rintro ⟨reply, haccepted, hbuffer⟩
    rw [fetch_of_accepted haccepted, ← hbuffer]

theorem fetch_eq_error_iff {e : KeyError} :
    (session.fetch buffer).value.1 = .error e ↔ session.FirstFailure buffer e := by
  constructor
  · intro herror
    rcases session.exists_outcome buffer with ⟨e', hfailure⟩ | ⟨reply, length, haccepted⟩
    · rw [fetch_of_firstFailure hfailure] at herror
      cases herror
      exact hfailure
    · rw [fetch_of_accepted haccepted] at herror
      cases herror
  · exact fetch_of_firstFailure

/-- A response is only asked for if the request was taken. -/
theorem traffic_fetch (session : Session) (buffer : Bytes) :
    Event.traffic (session.fetch buffer).events =
      match session.transport.send session.past (Request.encode ⟨getIdentity⟩) with
      | .ok () =>
        [.sent (Request.encode ⟨getIdentity⟩), .received [Response.headerSize, buffer.length]]
      | .error _ => [.sent (Request.encode ⟨getIdentity⟩)] := by
  cases hsend : session.transport.send session.past (Request.encode ⟨getIdentity⟩) with
  | error e => exact (fetch_of_send_error hsend).2
  | ok _ =>
    cases hreceive : session.transport.receive
        (session.past ++ [.sent (Request.encode ⟨getIdentity⟩)])
        [Response.headerSize, buffer.length] with
    | error e => exact (fetch_of_receive_error ⟨hsend, hreceive⟩).2
    | ok reply =>
      obtain ⟨response, hheader⟩ := reply.exists_header buffer
      exact (fetch_of_answer ⟨hsend, hreceive⟩ hheader).2

/-- A message that was scattered over the buffers is only accepted if it is complete. -/
theorem payload_of_scattered {message : Bytes} {identity : Identity}
    (hanswers : session.Answers buffer.length (.ok (.scattered message buffer.length)))
    (hok : (session.fetch buffer).value.1 = .ok identity) :
    message.length = Response.headerSize + identity.length ∧
      identity.payload = message.drop Response.headerSize := by
  obtain ⟨reply, haccepted, hbuffer⟩ := fetch_eq_ok_iff.1 hok
  obtain rfl : reply = .scattered message buffer.length :=
    Except.ok.inj (haccepted.answers.received.symm.trans hanswers.received)
  have hlong : Response.headerSize ≤ message.length := haccepted.long
  have hlength : identity.length = message.length - Response.headerSize := haccepted.length_eq
  have hfits := haccepted.fits
  have hle : message.length ≤ Response.headerSize + buffer.length := by omega
  obtain ⟨rest, hmemory⟩ := Reply.isPrefix_memory_scattered hle
  refine ⟨by omega, ?_⟩
  rw [Identity.payload, hbuffer, ← hmemory, List.drop_append_of_le_length hlong]
  exact List.take_left' (by rw [List.length_drop, hlength])

/-- The payload is as long as it is said to be, and never longer than the buffer offered for it. -/
theorem length_payload {identity : Identity}
    (h : (session.fetch buffer).value.1 = .ok identity) :
    identity.payload.length = identity.length ∧ identity.length ≤ buffer.length := by
  obtain ⟨reply, haccepted, hbuffer⟩ := fetch_eq_ok_iff.1 h
  have hfits := haccepted.fits
  refine ⟨?_, hfits⟩
  rw [Identity.payload, hbuffer, List.length_take, List.length_drop, Reply.memory,
    Reply.length_fill, List.length_append, Bytes.length_zeros]
  omega

theorem length_payload_le {identity : Identity}
    (h : (session.fetch buffer).value.1 = .ok identity) :
    identity.payload.length ≤ buffer.length :=
  Nat.le_trans (Nat.le_of_eq (length_payload h).1) (length_payload h).2

/-- A payload that fits is fetched as a whole. -/
theorem exists_fetch_of_scattered {payload : Bytes} (hlength : payload.length ≤ buffer.length)
    (hanswers : session.Answers buffer.length
      (.ok (.scattered (Response.encode ⟨0x80000001, 0⟩ ++ payload) buffer.length))) :
    ∃ identity, (session.fetch buffer).value.1 = .ok identity ∧ identity.payload = payload := by
  have hmessage : (Response.encode ⟨0x80000001, 0⟩ ++ payload).length =
      Response.headerSize + payload.length := List.length_append
  have hstored := Reply.isPrefix_memory_scattered
    (Nat.le_trans (Nat.le_of_eq hmessage) (Nat.add_le_add_left hlength _))
  have haccepted : session.Accepted buffer _ payload.length := {
    answers := hanswers
    long := Nat.le_trans (Nat.le_add_right 8 _) (Nat.le_of_eq hmessage.symm)
    header := (List.prefix_append _ _).trans hstored
    length_eq := (Nat.sub_eq_of_eq_add' hmessage).symm
    fits := hlength }
  have hok := fetch_of_accepted haccepted
  refine ⟨_, hok, ?_⟩
  rw [(payload_of_scattered hanswers hok).2]
  exact List.drop_left' rfl

/-- The transport takes the request and answers with a payload behind a header that reports
success. -/
structure Delivers (session : Session) (payload : Bytes) : Prop where
  sent : session.transport.send session.past (Request.encode ⟨getIdentity⟩) = .ok ()
  received : session.transport.receive (session.past ++ [.sent (Request.encode ⟨getIdentity⟩)])
      [Response.headerSize, keyCapacity] =
    .ok ⟨Response.headerSize + payload.length,
      Response.encode ⟨Request.responseCommand ⟨getIdentity⟩, 0⟩ ++ payload⟩

theorem Delivers.fetch {payload : Bytes} (h : session.Delivers payload)
    (hlength : payload.length ≤ keyCapacity) :
    ∃ identity, (session.fetch (Bytes.zeros keyCapacity)).value.1 = .ok identity ∧
      identity.payload = payload := by
  have hle : (Response.encode ⟨0x80000001, 0⟩ ++ payload).length ≤
      Response.headerSize + keyCapacity := by
    rw [List.length_append]
    exact Nat.add_le_add_left hlength _
  apply exists_fetch_of_scattered
  · rwa [Bytes.length_zeros]
  · rw [Bytes.length_zeros]
    refine ⟨h.sent, ?_⟩
    rw [h.received, Reply.scattered, List.take_of_length_le hle, List.length_append]
    rfl

/-- **When an identity is fetched.** Exactly if the answer passes all checks; then it is what was
stored behind the header. Otherwise the error is that of the first check that is not passed. A
response is only asked for if the request was taken, and if the transport reports the length of the
whole message, a message that did not fit is never accepted. -/
theorem fetch_iff (session : Session) (buffer : Bytes) :
    (∀ identity, (session.fetch buffer).value.1 = .ok identity ↔
      ∃ reply, session.Accepted buffer reply identity.length ∧
        identity.buffer = (reply.memory buffer).drop Response.headerSize) ∧
    (∀ e, (session.fetch buffer).value.1 = .error e ↔ session.FirstFailure buffer e) ∧
    (Event.traffic (session.fetch buffer).events =
      match session.transport.send session.past (Request.encode ⟨getIdentity⟩) with
      | .ok () =>
        [.sent (Request.encode ⟨getIdentity⟩), .received [Response.headerSize, buffer.length]]
      | .error _ => [.sent (Request.encode ⟨getIdentity⟩)]) ∧
    ∀ (message : Bytes) (identity : Identity),
      session.Answers buffer.length (.ok (.scattered message buffer.length)) →
      (session.fetch buffer).value.1 = .ok identity →
      message.length = Response.headerSize + identity.length ∧
        identity.payload = message.drop Response.headerSize :=
  ⟨fun _ => fetch_eq_ok_iff, fun _ => fetch_eq_error_iff, session.traffic_fetch buffer,
    fun _ _ => payload_of_scattered⟩

end Session

/-! ## The largest key -/

def largestKey : Bytes := List.replicate keyCapacity 7

theorem length_largestKey : largestKey.length = keyCapacity := List.length_replicate

/-- A service that has the largest key. -/
def keySession : Session where
  transport := {
    connect := fun _ _ => .ok ()
    send := fun _ _ => .ok ()
    receive := fun _ _ => .ok ⟨Response.headerSize + largestKey.length,
      Response.encode ⟨Request.responseCommand ⟨getIdentity⟩, 0⟩ ++ largestKey⟩ }
  past := []

theorem fetch_keySession : ∃ identity,
    (keySession.fetch (Bytes.zeros keyCapacity)).value.1 = .ok identity ∧
      identity.payload = largestKey :=
  Session.Delivers.fetch ⟨rfl, rfl⟩ (Nat.le_of_eq length_largestKey)

/-- The largest key is fetched as a whole, and not at all if the buffer is smaller. -/
theorem Session.fetch_iff_keySession : ∃ identity,
    (keySession.fetch (Bytes.zeros keyCapacity)).value.1 = .ok identity ∧
      identity.length = 128 ∧ identity.payload = largestKey ∧
      (keySession.fetch (Bytes.zeros 100)).value.1 = .error (.payloadTooLarge 128) := by
  have hlargest : Response.headerSize + largestKey.length = 136 := by decide +kernel
  have hreply (capacity : Nat) : keySession.Answers capacity
      (.ok ⟨136, Response.encode ⟨0x80000001, 0⟩ ++ largestKey⟩) :=
    ⟨rfl, hlargest ▸ rfl⟩
  have hcomplete : Reply.scattered (Response.encode ⟨0x80000001, 0⟩ ++ largestKey)
      (Bytes.zeros keyCapacity).length =
        ⟨136, Response.encode ⟨0x80000001, 0⟩ ++ largestKey⟩ := by decide +kernel
  obtain ⟨identity, hok, -⟩ := fetch_keySession
  obtain ⟨-, -, -, hscattered⟩ := Session.fetch_iff keySession (Bytes.zeros keyCapacity)
  obtain ⟨-, herror, -⟩ := Session.fetch_iff keySession (Bytes.zeros 100)
  obtain ⟨hlength, hpayload⟩ := hscattered _ identity (by rw [hcomplete]; exact hreply _) hok
  have hmessage : (Response.encode ⟨0x80000001, 0⟩ ++ largestKey).length =
      Response.headerSize + 128 := by decide +kernel
  have hlarge : keySession.FirstFailure (Bytes.zeros 100) (.payloadTooLarge 128) :=
    .tooLarge (hreply _) (by decide) (by decide +kernel) (by decide +kernel)
  exact ⟨identity, hok, by omega, hpayload, (herror _).2 hlarge⟩

end KeyService

end BootTree
