import SeccapBank.RequestText
import SeccapBank.Server

set_option autoImplicit false

/- The byte stream of a connection, and the pieces in which recv hands it on. -/
namespace SeccapBank

open CStrings Buffers Fallible Decimals Runs

variable {sgx : Sgx} {stack : Stack} {s s' : Server}

/-- A request as it is sent: a text that fits, with zeros up to the size of the buffer. -/
structure Message where
  text : RequestText
  fits : text.bytes.length ≤ receiveBufSize

def Message.bytes (message : Message) : Bytes :=
  message.text.bytes ++ calloc (receiveBufSize - message.text.bytes.length)

theorem Message.bytes_length (message : Message) : message.bytes.length = receiveBufSize := by
  have fits := message.fits
  rw [Message.bytes, List.length_append, calloc_length]
  omega

/-- The message received whole. -/
def Message.chunk (message : Message) : Chunk where
  bytes := message.bytes
  nonempty := List.ne_nil_of_length_pos (by rw [message.bytes_length]; decide)
  bound := Nat.le_of_eq message.bytes_length

theorem Chunk.ext {first second : Chunk} (same : first.bytes = second.bytes) : first = second := by
  cases first
  cases second
  cases same
  rfl

theorem calloc_comma (size : Nat) : (calloc size).count comma = 0 := by
  rw [List.count_eq_zero]
  intro member
  exact absurd (mem_calloc member) (by decide)

theorem Chunk.buf_comma (chunk : Chunk) : chunk.buf.count comma = chunk.bytes.count comma := by
  have zeros : (calloc receiveBufSize).drop chunk.bytes.length =
      calloc (receiveBufSize - chunk.bytes.length) := List.drop_replicate
  rw [Chunk.buf, blit, zeros, List.count_append, calloc_comma, Nat.add_zero]

theorem Message.chunk_buf (message : Message) : message.chunk.buf = message.bytes := by
  have whole : (calloc receiveBufSize).length ≤ message.bytes.length := by
    rw [calloc_length, message.bytes_length]
  exact blit_length_of_le whole

theorem Message.count_comma (message : Message) :
    message.bytes.count comma = message.text.fields.length := by
  rw [Message.bytes, message.text.count_comma, calloc_comma, Nat.add_zero]

theorem Message.requestOf (message : Message) :
    SeccapBank.requestOf message.chunk.buf = .ok message.text.request := by
  have three := message.text.fields_le
  rw [message.chunk_buf, Message.bytes, requestOf_text _ message.bytes_length, calloc_comma,
    if_pos (by omega)]

/-- The commas that the request behind an ecall has at least. -/
def Ecall.commas : Ecall → Nat
  | .initManager => 0
  | .newAccount .. => 3
  | .myDeposit _ => 2
  | .myWithdraw _ => 2
  | .myInquiry => 0

/-- The commas that these ecalls take from the stream. -/
def commasOf (calls : List Ecall) : Nat := (calls.map Ecall.commas).sum

/-- The requests behind these ecalls. -/
def requestsOf (calls : List Ecall) : Nat := calls.countP (0 < ·.commas)

theorem commasOf_append (first second : List Ecall) :
    commasOf (first ++ second) = commasOf first + commasOf second := by
  rw [commasOf, List.map_append, List.sum_append]
  rfl

theorem requestsOf_append (first second : List Ecall) :
    requestsOf (first ++ second) = requestsOf first + requestsOf second :=
  List.countP_append

theorem Request.Makes.counts {request : Request} {calls : List Ecall}
    (makes : request.Makes calls) :
    requestsOf calls = request.replies ∧ commasOf calls = request.replies * request.fields := by
  cases request with
  | login name password =>
      rcases makes with rfl | rfl
      · exact ⟨rfl, rfl⟩
      · exact ⟨rfl, rfl⟩
  | deposit amount =>
      obtain rfl : calls = _ := makes
      exact ⟨rfl, rfl⟩
  | withdraw amount =>
      obtain rfl : calls = _ := makes
      exact ⟨rfl, rfl⟩
  | stop =>
      obtain rfl : calls = _ := makes
      exact ⟨rfl, rfl⟩
  | other =>
      obtain rfl : calls = _ := makes
      exact ⟨rfl, rfl⟩

/-- A chunk takes at most its own commas, and all of them only for a request. -/
theorem receive_counts {chunk : Chunk} {stopped : Bool}
    (returned : (receive sgx stack (.data chunk)).run s = .ok (stopped, s')) :
    ∃ calls, Served sgx s calls (requestsOf calls) s' ∧
      commasOf calls ≤ chunk.bytes.count comma ∧
        (commasOf calls = chunk.bytes.count comma → requestsOf calls = 1 ∧ stopped = false) := by
  obtain ⟨request, found, performed⟩ := receive_data.mp returned
  obtain ⟨stop, calls, makes, served⟩ := perform_served performed
  obtain ⟨fields, _⟩ := requestOf_commas chunk.buf_length found
  obtain ⟨requests, commas⟩ := makes.counts
  rw [chunk.buf_comma] at fields
  refine ⟨calls, ?_, ?_, ?_⟩
  · rw [requests]
    exact served
  · cases request <;> simp only [Request.replies, Request.fields] at commas fields <;> omega
  · intro equal
    cases request with
    | stop =>
        simp only [Request.replies, Request.fields] at commas fields
        omega
    | other =>
        simp only [Request.replies, Request.fields] at commas fields
        omega
    | _ =>
        refine ⟨requests, Bool.eq_false_iff.mpr fun leaves => ?_⟩
        cases stop.mp leaves

/-- The chunks of a stream take at most its commas, and all of them only when every
chunk is a request. -/
theorem serve_counts {chunks : List Chunk} {stopped : Bool}
    (returned : (serve sgx stack (chunks.map .data)).run s = .ok (stopped, s')) :
    ∃ calls, Served sgx s calls (requestsOf calls) s' ∧
      commasOf calls ≤ (chunks.flatMap (·.bytes)).count comma ∧
        (commasOf calls = (chunks.flatMap (·.bytes)).count comma →
          requestsOf calls = chunks.length) := by
  induction chunks generalizing s with
  | nil =>
      cases returned
      exact ⟨[], .refl sgx _, Nat.le_refl _, fun _ => rfl⟩
  | cons chunk chunks ih =>
      obtain ⟨stop, s1, head, tail⟩ := run_bind_ok.mp returned
      obtain ⟨calls, served, within, equal⟩ := receive_counts head
      rw [List.flatMap_cons, List.count_append]
      cases stop with
      | true =>
          cases tail
          refine ⟨calls, served, by omega, fun all => ?_⟩
          have leaves := (equal (by omega)).2
          cases leaves
      | false =>
          obtain ⟨calls', served', within', equal'⟩ := ih tail
          have both := served.trans served'
          rw [← requestsOf_append] at both
          refine ⟨_, both, ?_, fun all => ?_⟩
          · rw [commasOf_append]
            omega
          · rw [commasOf_append] at all
            have one := (equal (by omega)).1
            have rest := equal' (by omega)
            rw [requestsOf_append, List.length_cons]
            omega

theorem RequestText.request_replies (text : RequestText) : text.request.replies = 1 := by
  cases text <;> rfl

/-- Messages that are received whole are one request each, and take all commas. -/
theorem serve_messages {messages : List Message} {stopped : Bool}
    (returned : (serve sgx stack (messages.map fun message => .data message.chunk)).run s =
      .ok (stopped, s')) :
    ∃ calls, Served sgx s calls messages.length s' ∧
      commasOf calls = (messages.flatMap (·.bytes)).count comma := by
  induction messages generalizing s with
  | nil =>
      cases returned
      exact ⟨[], .refl sgx _, rfl⟩
  | cons message messages ih =>
      obtain ⟨stop, s1, head, tail⟩ := run_bind_ok.mp returned
      obtain ⟨request, found, performed⟩ := receive_data.mp head
      rw [message.requestOf] at found
      cases found
      obtain ⟨leaves, calls, makes, served⟩ := perform_served performed
      obtain ⟨_, commas⟩ := makes.counts
      rw [message.text.request_replies] at served commas
      have runs : stop = false := by
        rw [Bool.eq_false_iff]
        intro stops
        have none := message.text.request_replies
        rw [leaves.mp stops] at none
        cases none
      subst runs
      obtain ⟨calls', served', commas'⟩ := ih tail
      have both := served.trans served'
      rw [Nat.add_comm] at both
      refine ⟨_, both, ?_⟩
      rw [commasOf_append, commas, commas', List.flatMap_cons, List.count_append,
        message.count_comma, message.text.request_fields]
      omega

/-- Served in these pieces, the server makes the calls it made for the whole messages,
and writes one reply for each message. -/
def SameService (sgx : Sgx) (stack : Stack) (s : Server) (chunks : List Chunk)
    (messages : List Message) (reference : Server) : Prop :=
  ∃ stopped final, (serve sgx stack (chunks.map .data)).run s = .ok (stopped, final) ∧
    final.calls = reference.calls ∧ final.sent.length = s.sent.length + messages.length

/-- Where the server gets through the whole messages, it serves a cut of their stream in
the same way exactly when every piece is one whole message. -/
theorem same_service_iff {messages : List Message} {chunks : List Chunk} {stopped : Bool}
    {reference : Server}
    (whole : (serve sgx stack (messages.map fun message => .data message.chunk)).run s =
      .ok (stopped, reference))
    (cut : chunks.flatMap (·.bytes) = messages.flatMap (·.bytes)) :
    SameService sgx stack s chunks messages reference ↔
      chunks.map (·.bytes) = messages.map (·.bytes) := by
  obtain ⟨calls, served, taken⟩ := serve_messages whole
  constructor
  · rintro ⟨_, final, pieces, same, replies⟩
    obtain ⟨calls', served', _, all⟩ := serve_counts pieces
    have made : calls' = calls := by
      rw [served.logged, served'.logged] at same
      exact List.append_cancel_left same
    have number : chunks.length = messages.length := by
      have requests := all (by rw [made, taken, cut])
      have written := served'.replied
      omega
    apply Delimited.pieces_eq_blocks
    · intro piece member
      obtain ⟨chunk, _, rfl⟩ := List.mem_map.mp member
      exact chunk.bound
    · intro block member
      obtain ⟨message, _, rfl⟩ := List.mem_map.mp member
      exact message.bytes_length
    · rw [← List.flatMap_def, ← List.flatMap_def]
      exact cut
    · rw [List.length_map, List.length_map]
      exact number
  · intro equal
    have same : chunks = messages.map Message.chunk := by
      apply List.map_injective_iff.mpr fun first second => Chunk.ext
      rw [equal, List.map_map]
      rfl
    refine ⟨stopped, reference, ?_, rfl, served.replied⟩
    rw [same, List.map_map]
    exact whole

def loginMessage : Message :=
  ⟨.login ⟨ascii "a", savedName_nulFree, by decide⟩
    ⟨ascii "p", savedPassword_nulFree, by decide⟩, by decide⟩

/-- The first four bytes of the message and the rest of it, as two results of recv. -/
def loginPieces : List Chunk :=
  [⟨loginMessage.bytes.take 4, by decide, by decide⟩,
    ⟨loginMessage.bytes.drop 4, by decide +kernel, by decide +kernel⟩]

theorem loginMessage_served : ∃ reference,
    (serve clearSealing cleanStack ([loginMessage].map fun message => .data message.chunk)).run
      openServer = .ok (false, reference) ∧ reference.calls.length = 3 := by
  have evaluated : ((perform clearSealing cleanStack loginMessage.text.request).run openServer).map
      (fun p => (p.1, p.2.calls.length)) = .ok (false, 3) := by
    decide +kernel
  obtain ⟨⟨stopped, reference⟩, performed, facts⟩ := map_ok evaluated
  obtain ⟨rfl, calls⟩ := Prod.mk.inj facts
  refine ⟨reference, ?_, calls⟩
  have received := receive_data.mpr ⟨_, loginMessage.requestOf, performed⟩
  exact run_bind_ok.mpr ⟨_, _, received, rfl⟩

theorem receive_message (message : Message) :
    receive sgx stack (.data message.chunk) = perform sgx stack message.text.request :=
  receive_taken message.requestOf

/-- A login, a deposit and a withdrawal. -/
def threeMessages : List Message :=
  [loginMessage, ⟨.deposit ⟨ascii "50", by decide, by decide⟩, by decide⟩,
    ⟨.withdraw ⟨ascii "20", by decide, by decide⟩, by decide⟩]

theorem same_service_whole : ∃ reference,
    reference.calls = [.initManager, .newAccount ⟨ascii "a", savedName_nulFree⟩
      ⟨ascii "p", savedPassword_nulFree⟩, .myInquiry, .myDeposit 50, .myWithdraw 20] ∧
      SameService clearSealing cleanStack openServer (threeMessages.map Message.chunk)
        threeMessages reference := by
  have evaluated : ((serve clearSealing cleanStack
      (threeMessages.map fun message => .data message.chunk)).run openServer).map
        (fun p => p.2.calls) = .ok [.initManager, .newAccount ⟨ascii "a", savedName_nulFree⟩
          ⟨ascii "p", savedPassword_nulFree⟩, .myInquiry, .myDeposit 50, .myWithdraw 20] := by
    simp only [threeMessages, List.map_cons, List.map_nil, serve, receive_message]
    decide +kernel
  obtain ⟨⟨stopped, reference⟩, whole, calls⟩ := map_ok evaluated
  refine ⟨reference, calls, (same_service_iff whole ?_).mpr ?_⟩
  · rw [List.flatMap_map]
    rfl
  · rw [List.map_map]
    rfl

/-- A login that is cut behind its fourth byte is not served as it is when received
whole: the first piece has no comma, and the comparison with `data[0]` reads NULL. -/
theorem cut_login : ∃ reference,
    (serve clearSealing cleanStack ([loginMessage].map fun message => .data message.chunk)).run
      openServer = .ok (false, reference) ∧
    loginPieces.flatMap (·.bytes) = [loginMessage].flatMap (·.bytes) ∧
      (serve clearSealing cleanStack (loginPieces.map .data)).run openServer = .error .nullPointer ∧
        ¬ SameService clearSealing cleanStack openServer loginPieces [loginMessage] reference := by
  obtain ⟨reference, whole, _⟩ := loginMessage_served
  have faults : (serve clearSealing cleanStack (loginPieces.map .data)).run openServer =
      .error .nullPointer := by
    have clean : comma ∉ (Chunk.mk (loginMessage.bytes.take 4) (by decide) (by decide)).buf := by
      rw [← List.count_eq_zero, Chunk.buf_comma]
      decide
    have failed := requestOf_no_comma (Chunk.buf_length _) clean
    exact run_bind_of_error (receive_fault failed) _
  refine ⟨reference, whole, ?_, faults, ?_⟩
  · simp [loginPieces]
  · rintro ⟨_, _, served, _⟩
    rw [faults] at served
    cases served

end SeccapBank
