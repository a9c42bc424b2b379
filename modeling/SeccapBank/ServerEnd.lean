import SeccapBank.RequestGrammar
import SeccapBank.Segmentation

set_option autoImplicit false

/- The end of the server: which request histories lead out of the two receive loops when
the client has closed the connection. -/
namespace SeccapBank

open CStrings Buffers Fallible

variable {sgx : Sgx} {stack : Stack} {s s' : Server}

/-- The command that leaves both loops: a buffer that begins with it, with the comma
without which the comparisons before it read NULL. -/
def EndCommand (buf : Bytes) : Prop :=
  ascii "end" <+: buf ∧ 1 ≤ buf.count comma ∧ buf.count comma ≤ 3

theorem endCommand_iff {buf : Bytes} (whole : buf.length = receiveBufSize) :
    EndCommand buf ↔ requestOf buf = .ok .stop := by
  constructor
  · rintro ⟨keyword, one, three⟩
    have suffice : CommasSuffice buf := by
      refine ⟨⟨one, three⟩, fun login => ?_, fun money => ?_⟩
      · exact absurd login (keywords_apart keyword (by decide))
      · rcases money with deposit | withdraw
        · exact absurd deposit (keywords_apart keyword (by decide))
        · exact absurd withdraw (keywords_apart keyword (by decide))
    obtain ⟨request, taken⟩ := parserSafe_iff_requestOf.mp (safe_of_commasSuffice whole suffice)
    rw [taken, (stop_iff whole taken).mpr keyword]
  · intro taken
    obtain ⟨one, three⟩ := requestOf_commas whole taken
    exact ⟨(stop_iff whole taken).mp rfl, one, three⟩

theorem receive_stopped {result : Received}
    (returned : (receive sgx stack result).run s = .ok (true, s')) :
    ∃ chunk, result = .data chunk ∧ EndCommand chunk.buf := by
  cases result with
  | closed => cases returned
  | failed => cases returned
  | data chunk =>
      obtain ⟨request, taken, performed⟩ := receive_data.mp returned
      obtain ⟨leaves, _⟩ := perform_served performed
      rw [leaves.mp rfl, ← endCommand_iff chunk.buf_length] at taken
      exact ⟨chunk, rfl, taken⟩

theorem receive_end {chunk : Chunk} (command : EndCommand chunk.buf) :
    (receive sgx stack (.data chunk)).run s = .ok (true, s) :=
  receive_data.mpr ⟨.stop, (endCommand_iff chunk.buf_length).mp command, rfl⟩

theorem serve_cons {result : Received} {rest : List Received} {stopped : Bool} :
    (serve sgx stack (result :: rest)).run s = .ok (stopped, s') ↔
      ((receive sgx stack result).run s = .ok (true, s') ∧ stopped = true) ∨
        ∃ s1, (receive sgx stack result).run s = .ok (false, s1) ∧
          (serve sgx stack rest).run s1 = .ok (stopped, s') := by
  rw [serve, run_bind_ok]
  constructor
  · rintro ⟨stop, s1, head, tail⟩
    cases stop with
    | true =>
        cases tail
        exact .inl ⟨head, rfl⟩
    | false => exact .inr ⟨s1, head, tail⟩
  · rintro (⟨head, rfl⟩ | ⟨s1, head, tail⟩)
    · exact ⟨true, s', head, rfl⟩
    · exact ⟨false, s1, head, tail⟩

/-- The loops are left exactly at an end command that the server gets to. -/
theorem serve_stopped {received : List Received} :
    (∃ s', (serve sgx stack received).run s = .ok (true, s')) ↔
      ∃ front chunk back s1, received = front ++ .data chunk :: back ∧ EndCommand chunk.buf ∧
        (serve sgx stack front).run s = .ok (false, s1) := by
  constructor
  · rintro ⟨s', returned⟩
    induction received generalizing s with
    | nil => cases returned
    | cons result rest ih =>
        rcases serve_cons.mp returned with ⟨head, _⟩ | ⟨s1, head, tail⟩
        · obtain ⟨chunk, rfl, command⟩ := receive_stopped head
          exact ⟨[], chunk, rest, s, rfl, command, rfl⟩
        · obtain ⟨front, chunk, back, s2, rfl, command, served⟩ := ih tail
          exact ⟨result :: front, chunk, back, s2, rfl, command,
            serve_cons.mpr (.inr ⟨s1, head, served⟩)⟩
  · rintro ⟨front, chunk, back, s1, rfl, command, served⟩
    induction front generalizing s with
    | nil => exact ⟨s, serve_cons.mpr (.inl ⟨receive_end command, rfl⟩)⟩
    | cons result front ih =>
        rcases serve_cons.mp served with ⟨_, left⟩ | ⟨s2, head, tail⟩
        · cases left
        · obtain ⟨s', returned⟩ := ih tail
          exact ⟨s', serve_cons.mpr (.inr ⟨s2, head, returned⟩)⟩

/-- What one call of `recv` after the other brings: the requests, and then the 0 of a
connection that the peer has closed, for ever. -/
def recvResult (requests : List Chunk) (i : Nat) : Received :=
  match requests[i]? with
  | some chunk => .data chunk
  | none => .closed

/-- The passes of the loops over the first results of `recv`. -/
def servePasses (sgx : Sgx) (stack : Stack) (requests : List Chunk) (n : Nat) : App Bool :=
  serve sgx stack ((List.range n).map (recvResult requests))

/-- After some number of passes the loops are left for `server_end`. -/
def Stops (sgx : Sgx) (stack : Stack) (s : Server) (requests : List Chunk) : Prop :=
  ∃ n s', (servePasses sgx stack requests n).run s = .ok (true, s')

theorem recvResult_front (front back : List Chunk) :
    (List.range front.length).map (recvResult (front ++ back)) = front.map .data := by
  apply List.ext_getElem?
  intro i
  rw [List.getElem?_map, List.getElem?_map]
  by_cases inside : i < front.length
  · rw [List.getElem?_range inside, List.getElem?_eq_getElem inside, Option.map_some,
      Option.map_some, recvResult, List.getElem?_append_left inside,
      List.getElem?_eq_getElem inside]
  · rw [List.getElem?_eq_none (by simpa using inside),
      List.getElem?_eq_none (by simpa using inside)]
    rfl

theorem recvResult_closed {requests : List Chunk} {i : Nat} (behind : requests.length ≤ i) :
    recvResult requests i = .closed := by
  rw [recvResult, List.getElem?_eq_none behind]

theorem recvResult_data {requests : List Chunk} {i : Nat} {chunk : Chunk} :
    recvResult requests i = .data chunk ↔ requests[i]? = some chunk := by
  rw [recvResult]
  split
  · rename_i other found
    rw [found, Received.data.injEq, Option.some.injEq]
  · rename_i none
    rw [none]
    exact iff_of_false Received.noConfusion (Option.some_ne_none chunk).symm

/-- One more pass over a closed connection changes nothing. -/
theorem serve_closed {received : List Received}
    (served : (serve sgx stack received).run s = .ok (false, s')) :
    (serve sgx stack (received ++ [.closed])).run s = .ok (false, s') := by
  induction received generalizing s with
  | nil =>
      cases served
      rfl
  | cons result rest ih =>
      rcases serve_cons.mp served with ⟨_, left⟩ | ⟨s1, head, tail⟩
      · cases left
      · exact serve_cons.mpr (.inr ⟨s1, head, ih tail⟩)

/-- A server that gets through the requests without leaving its loops never leaves them:
all further passes return, and change nothing. -/
theorem serve_forever {requests : List Chunk}
    (served : (serve sgx stack (requests.map .data)).run s = .ok (false, s')) (n : Nat) :
    (servePasses sgx stack requests (requests.length + n)).run s = .ok (false, s') := by
  induction n with
  | zero =>
      have front := recvResult_front requests []
      rw [List.append_nil] at front
      rw [servePasses, Nat.add_zero, front]
      exact served
  | succ n ih =>
      have closed := recvResult_closed (requests.length.le_add_right n)
      rw [servePasses, ← Nat.add_assoc, List.range_succ, List.map_append, List.map_singleton,
        closed]
      exact serve_closed ih

theorem Stops.command {requests : List Chunk} (stops : Stops sgx stack s requests) :
    ∃ front chunk back s', requests = front ++ chunk :: back ∧ EndCommand chunk.buf ∧
      (serve sgx stack (front.map .data)).run s = .ok (false, s') := by
  obtain ⟨n, left⟩ := stops
  obtain ⟨front, chunk, back, s1, whole, command, served⟩ := serve_stopped.mp left
  have inside : front.length < n := by
    have total := congrArg List.length whole
    rw [List.length_map, List.length_range, List.length_append, List.length_cons] at total
    omega
  have here := congrArg (·[front.length]?) whole
  simp only [List.getElem?_map, List.getElem?_range inside, Option.map_some,
    List.getElem?_append_right (Nat.le_refl _), Nat.sub_self, List.getElem?_cons_zero,
    Option.some.injEq, recvResult_data] at here
  obtain ⟨bound, found⟩ := List.getElem?_eq_some_iff.mp here
  have parts : requests.take front.length ++ chunk :: requests.drop (front.length + 1) =
      requests := by
    rw [← found, ← List.drop_eq_getElem_cons bound, List.take_append_drop]
  have earlier := recvResult_front (requests.take front.length)
    (chunk :: requests.drop (front.length + 1))
  have taken := congrArg (List.take front.length) whole
  rw [List.take_left, ← List.map_take, List.take_range, Nat.min_eq_left (Nat.le_of_lt inside)]
    at taken
  rw [parts, List.length_take_of_le (Nat.le_of_lt bound), taken] at earlier
  refine ⟨_, chunk, _, s1, parts.symm, command, ?_⟩
  rw [← earlier]
  exact served

/-- With the connection closed behind the requests, the server stops exactly if one of them
is the end command and the server gets through those before it. -/
theorem server_stops_iff (requests : List Chunk) :
    Stops sgx stack s requests ↔
      ∃ front chunk back s', requests = front ++ chunk :: back ∧ EndCommand chunk.buf ∧
        (serve sgx stack (front.map .data)).run s = .ok (false, s') := by
  constructor
  · exact Stops.command
  · rintro ⟨front, chunk, back, s', rfl, command, served⟩
    have here : recvResult (front ++ chunk :: back) front.length = .data chunk :=
      recvResult_data.mpr (by simp)
    refine ⟨front.length + 1, serve_stopped.mpr
      ⟨front.map .data, chunk, [], s', ?_, command, served⟩⟩
    rw [List.range_succ, List.map_append, List.map_singleton, recvResult_front, here]

/-- No request of the client is the end command, so none of its sessions stops the server. -/
theorem messages_never_stop (messages : List Message) :
    ¬ Stops sgx stack s (messages.map Message.chunk) := by
  intro stops
  obtain ⟨front, chunk, back, _, whole, command, _⟩ := stops.command
  have listed : chunk ∈ messages.map Message.chunk := by
    rw [whole]
    exact List.mem_append_right _ (List.mem_cons_self ..)
  obtain ⟨message, _, rfl⟩ := List.mem_map.mp listed
  have stop := (endCommand_iff message.chunk.buf_length).mp command
  rw [message.requestOf] at stop
  have replies := message.text.request_replies
  rw [Except.ok.inj stop] at replies
  cases replies

/-- The server serves one login, and then runs over the closed connection for ever. -/
theorem login_never_stops :
    (∃ s', ∀ n, (servePasses clearSealing cleanStack [loginMessage.chunk] (1 + n)).run openServer =
      .ok (false, s')) ∧ ¬ Stops clearSealing cleanStack openServer [loginMessage.chunk] := by
  obtain ⟨reference, served, _⟩ := loginMessage_served
  exact ⟨⟨reference, serve_forever served⟩, messages_never_stop [loginMessage]⟩

end SeccapBank
