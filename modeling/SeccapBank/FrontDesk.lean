import SeccapBank.EnclaveMachine
import SeccapBank.ServerEnd
import SeccapBank.ServerReplies
import SeccapBank.ServerRuns

set_option autoImplicit false

/- The server as a desk over the ledger machine: what it replies to whatever it receives,
and where it fails. -/
namespace SeccapBank

open CStrings Buffers Fallible Decimals Runs Ledgers

deriving instance DecidableEq for Reply

/-- What a money call or an inquiry returns for an answer. -/
def answerValue : Answer → UInt64
  | .balance amount => UInt64.ofNat amount
  | _ => ProcessResult.needLogout.toUInt64

/-- The reply that a request is owed, and the ledger behind it. A login that is granted is
followed by an inquiry, and a withdrawal that leaves less than it asked for is taken for
refused. -/
def deskReply (l : Ledger Bytes Bytes) : Request → Option (Reply × Ledger Bytes Bytes)
  | .login name password =>
      (ledgerPerform l (.enter name.bytes password.bytes)).bind fun entered =>
        match entered.1 with
        | .granted => (ledgerPerform entered.2 .inquire).map fun asked =>
            (.loginSuccess (answerValue asked.1), asked.2)
        | _ => some (.loginFail, entered.2)
  | .deposit amount => (ledgerPerform l (.deposit amount.toNat)).map fun dealt =>
      (.balance (answerValue dealt.1), dealt.2)
  | .withdraw amount => (ledgerPerform l (.withdraw amount.toNat)).map fun dealt =>
      (if answerValue dealt.1 < amount then .tooBig else .balance (answerValue dealt.1), dealt.2)
  | .stop => none
  | .other => none

instance decidableFits (reply : Reply) : Decidable reply.Fits :=
  inferInstanceAs (Decidable (∀ size ∈ reply.sendDataSize, _))

/-- What a request brings about: the replies, whether the loops are left, and the ledger. A
reply that does not fit its array is none. -/
def deskPerform (l : Ledger Bytes Bytes) :
    Request → Option (List Reply × Bool × Ledger Bytes Bytes)
  | .stop => some ([], true, l)
  | .other => some ([], false, l)
  | request => (deskReply l request).bind fun answered =>
      if answered.1.Fits then some ([answered.1], false, answered.2) else none

/-- A received buffer that the parser does not get through brings about nothing. -/
def deskReceive (l : Ledger Bytes Bytes) :
    Received → Option (List Reply × Bool × Ledger Bytes Bytes)
  | .data chunk => (requestOf chunk.buf).toOption.bind (deskPerform l)
  | .closed => some ([], false, l)
  | .failed => some ([], false, l)

/-- The desk over the results of `recv`. -/
def deskServe : Ledger Bytes Bytes → List Received →
    Option (List Reply × Bool × Ledger Bytes Bytes)
  | l, [] => some ([], false, l)
  | l, received :: rest => (deskReceive l received).bind fun first =>
      if first.2.1 then some first
      else (deskServe first.2.2 rest).map fun behind => (first.1 ++ behind.1, behind.2)

variable {sgx : Sgx} {s s' : Server} {w w' : World} {manager : DealManager}
  {request : Request} {reply : Reply} {l' : Ledger Bytes Bytes}

theorem answerValue_of {answer : Answer} {value : UInt64}
    (encoded : .value value = answerReturned answer) : answerValue answer = value := by
  cases answer with
  | balance amount => exact (Returned.value.inj encoded).symm
  | nobody => exact (Returned.value.inj encoded).symm
  | granted => cases encoded
  | refused => cases encoded

theorem value_performed (wf : WellFormed w manager) {call : Ecall} {value : UInt64}
    (running : call ≠ .initManager) (made : EcallStep sgx w (call, .value value) w') :
    ∃ answer, ledgerPerform w.ledger call.op = some (answer, w'.ledger) ∧
      answerValue answer = value := by
  obtain ⟨answer, encoded, performed⟩ := ecall_performed sgx wf running made
  exact ⟨answer, performed, answerValue_of encoded⟩

/-- What the server derives from the enclave's results is what the desk replies. -/
theorem answered_desk (wf : WellFormed w manager) (answered : Answered sgx w w' request reply) :
    deskReply w.ledger request = some (reply, w'.ledger) := by
  cases answered with
  | refused made =>
      obtain ⟨answer, encoded, performed⟩ := newAccount_performed sgx wf made
      cases answer with
      | refused =>
          rw [deskReply, performed]
          rfl
      | _ => cases encoded
  | @login name password result entered deposits made accepted asked =>
      obtain ⟨answer, encoded, performed⟩ := newAccount_performed sgx wf made
      have step : EcallStep sgx w (.newAccount name password, .result result) entered :=
        run_map_ok.mpr ⟨result, made, rfl⟩
      obtain ⟨manager', _, wf', _⟩ := ecall_refines sgx wf (by simp) step
      obtain ⟨told, inquired, value⟩ := value_performed wf' (by simp)
        (show EcallStep sgx entered (.myInquiry, .value deposits) w' from
          run_map_ok.mpr ⟨deposits, asked, rfl⟩)
      have read : ledgerPerform entered.ledger .inquire = some (told, w'.ledger) := inquired
      rw [deskReply, performed, Option.bind_some]
      cases answer with
      | granted =>
          dsimp only
          rw [read, Option.map_some, value]
      | refused =>
          cases encoded
          exact absurd rfl accepted
      | _ => cases encoded
  | @deposit amount deposits made =>
      obtain ⟨answer, performed, rfl⟩ := value_performed wf (by simp)
        (show EcallStep sgx w (.myDeposit amount, .value deposits) w' from
          run_map_ok.mpr ⟨deposits, made, rfl⟩)
      have dealt : ledgerPerform w.ledger (.deposit amount.toNat) = some (answer, w'.ledger) :=
        performed
      rw [deskReply, dealt, Option.map_some]
  | @tooBig amount deposits made below =>
      obtain ⟨answer, performed, rfl⟩ := value_performed wf (by simp)
        (show EcallStep sgx w (.myWithdraw amount, .value deposits) w' from
          run_map_ok.mpr ⟨deposits, made, rfl⟩)
      have dealt : ledgerPerform w.ledger (.withdraw amount.toNat) = some (answer, w'.ledger) :=
        performed
      rw [deskReply, dealt, Option.map_some, if_pos below]
  | @withdraw amount deposits made covers =>
      obtain ⟨answer, performed, rfl⟩ := value_performed wf (by simp)
        (show EcallStep sgx w (.myWithdraw amount, .value deposits) w' from
          run_map_ok.mpr ⟨deposits, made, rfl⟩)
      have dealt : ledgerPerform w.ledger (.withdraw amount.toNat) = some (answer, w'.ledger) :=
        performed
      rw [deskReply, dealt, Option.map_some, if_neg covers]

theorem value_returned (doc : sgx.Documented) (reliable : sgx.Reliable) (synced : Synced sgx w)
    (call : Ecall) {body : Bank UInt64} {answer : Answer} (separated : call.CommaFree)
    (same : call.exec sgx = .value <$> body)
    (performed : ledgerPerform w.ledger call.op = some (answer, l'))
    (fits : ledgerLength sgx l' ≤ 65535) :
    ∃ w', body.run w = .ok (answerValue answer, w') ∧ w'.ledger = l' ∧ Synced sgx w' := by
  obtain ⟨w', step, rest⟩ := synced_performs sgx doc reliable synced separated performed fits
  rw [EcallStep, same] at step
  obtain ⟨value, inner, encoded⟩ := run_map_ok.mp step
  obtain rfl := answerValue_of encoded.symm
  exact ⟨w', inner, rest⟩

/-- What the desk replies is what the enclave makes the server derive. -/
theorem desk_answered (doc : sgx.Documented) (reliable : sgx.Reliable) (synced : Synced sgx w)
    (separated : request.Separated) (desk : deskReply w.ledger request = some (reply, l'))
    (fits : ledgerLength sgx l' ≤ 65535) :
    ∃ w', Answered sgx w w' request reply ∧ w'.ledger = l' ∧ Synced sgx w' := by
  cases request with
  | login name password =>
      rw [deskReply] at desk
      obtain ⟨⟨answer, l⟩, performed, rest⟩ := Option.bind_eq_some_iff.mp desk
      have enters (small : ledgerLength sgx l ≤ 65535) : ∃ result w1,
          (ecallNewAccount sgx name password).run w = .ok (result, w1) ∧
            .result result = answerReturned answer ∧ w1.ledger = l ∧ Synced sgx w1 := by
        obtain ⟨w1, step, rest⟩ := synced_performs sgx doc reliable synced
          (show (Ecall.newAccount name password).CommaFree from separated) performed small
        obtain ⟨result, inner, encoded⟩ := run_map_ok.mp step
        exact ⟨result, w1, inner, encoded.symm, rest⟩
      cases answer with
      | refused =>
          cases rest
          obtain ⟨result, w1, made, encoded, behind⟩ := enters fits
          cases encoded
          exact ⟨w1, .refused made, behind⟩
      | granted =>
          obtain ⟨⟨told, l2⟩, inquired, same⟩ := Option.map_eq_some_iff.mp rest
          cases same
          obtain ⟨i, selected, kept⟩ := Option.map_eq_some_iff.mp inquired
          cases kept
          obtain ⟨result, w1, made, encoded, rfl, synced1⟩ := enters fits
          cases encoded
          obtain ⟨w', asked, behind⟩ := value_returned doc reliable synced1 .myInquiry trivial rfl
            inquired fits
          exact ⟨w', .login made (by simp) asked, behind⟩
      | _ =>
          cases rest
          obtain ⟨result, w1, _, encoded, _⟩ := enters fits
          cases encoded
  | deposit amount =>
      rw [deskReply] at desk
      obtain ⟨⟨answer, l⟩, performed, same⟩ := Option.map_eq_some_iff.mp desk
      cases same
      obtain ⟨w', made, rest⟩ := value_returned doc reliable synced (.myDeposit amount) trivial rfl
        performed fits
      exact ⟨w', .deposit made, rest⟩
  | withdraw amount =>
      rw [deskReply] at desk
      obtain ⟨⟨answer, l⟩, performed, same⟩ := Option.map_eq_some_iff.mp desk
      obtain ⟨rfl, rfl⟩ := Prod.mk.inj same
      obtain ⟨w', made, rest⟩ := value_returned doc reliable synced (.myWithdraw amount) trivial
        rfl performed fits
      refine ⟨w', ?_, rest⟩
      dsimp only
      split
      · rename_i below
        exact .tooBig made below
      · rename_i covers
        exact .withdraw made covers
  | stop => cases desk
  | other => cases desk

/-- Every ledger behind a request fits in a blob of at most 16 bits of size. -/
def DeskFits (sgx : Sgx) : Ledger Bytes Bytes → List Received → Prop
  | _, [] => True
  | l, received :: rest => ∀ first ∈ deskReceive l received,
      ledgerLength sgx first.2.2 ≤ 65535 ∧ (first.2.1 = false → DeskFits sgx first.2.2 rest)

instance decidableDeskFits (sgx : Sgx) : (l : Ledger Bytes Bytes) → (received : List Received) →
    Decidable (DeskFits sgx l received)
  | _, [] => inferInstanceAs (Decidable True)
  | l, received :: rest =>
      have (first : List Reply × Bool × Ledger Bytes Bytes) :=
        decidableDeskFits sgx first.2.2 rest
      inferInstanceAs (Decidable (∀ first ∈ deskReceive l received, _ ∧ (_ → _)))

/-- Between these states the server wrote these replies, and came to this ledger. -/
structure DeskServed (sgx : Sgx) (s s' : Server) (replies : List Reply)
    (l : Ledger Bytes Bytes) : Prop where
  ledger : s'.bank.ledger = l
  synced : Synced sgx s'.bank
  sent : ∃ written, List.Forall₂ Reply.Written replies written ∧ s'.sent = s.sent ++ written

theorem DeskServed.refl (synced : Synced sgx s.bank) : DeskServed sgx s s [] s.bank.ledger :=
  ⟨rfl, synced, [], .nil, (List.append_nil _).symm⟩

theorem DeskServed.trans {middle : Server} {first second : List Reply} {l : Ledger Bytes Bytes}
    (before : DeskServed sgx s middle first l) (after : DeskServed sgx middle s' second l') :
    DeskServed sgx s s' (first ++ second) l' := by
  obtain ⟨written, related, sent⟩ := before.sent
  obtain ⟨written', related', sent'⟩ := after.sent
  refine ⟨after.ledger, after.synced, written ++ written', List.rel_append related related', ?_⟩
  rw [sent', sent, List.append_assoc]

theorem Reply.Written.fits {bytes : Bytes} (written : reply.Written bytes) : reply.Fits := by
  intro size sized
  rw [Reply.Written, show reply.sendDataSize = some size from sized] at written
  obtain ⟨rest, rfl, length⟩ := written
  rw [List.length_append, List.length_cons] at length
  omega

variable (stack : Stack)

/-- A request is performed as the desk performs it. -/
theorem perform_desk (doc : sgx.Documented) (reliable : sgx.Reliable)
    (synced : Synced sgx s.bank) (separated : request.Separated) {replies : List Reply}
    {stopped : Bool} (desk : deskPerform s.bank.ledger request = some (replies, stopped, l'))
    (fits : ledgerLength sgx l' ≤ 65535) :
    ∃ s', (perform sgx stack request).run s = .ok (stopped, s') ∧
      DeskServed sgx s s' replies l' := by
  have answers (owes : request ≠ .stop) (replied : (deskReply s.bank.ledger request).bind
      (fun answered => if answered.1.Fits then some ([answered.1], false, answered.2) else none) =
        some (replies, stopped, l')) :
      ∃ s', (perform sgx stack request).run s = .ok (stopped, s') ∧
        DeskServed sgx s s' replies l' := by
    obtain ⟨⟨reply, l⟩, found, rest⟩ := Option.bind_eq_some_iff.mp replied
    obtain ⟨room, same⟩ := Option.ite_none_right_eq_some.mp rest
    cases same
    obtain ⟨w', answered, ledger, synced'⟩ :=
      desk_answered doc reliable synced separated found fits
    obtain ⟨s1, served, rfl, bytes, written, sent⟩ := service_returns stack answered room
    refine ⟨{ s1 with console := s1.console ++ ["[Server]: 完了\n"] }, ?_, ledger, synced',
      [bytes], .cons written .nil, sent⟩
    rw [perform, if_neg owes, run_bind_of_ok served]
    rfl
  cases request with
  | login name password => exact answers (by simp) desk
  | deposit amount => exact answers (by simp) desk
  | withdraw amount => exact answers (by simp) desk
  | stop =>
      cases desk
      exact ⟨s, rfl, .refl synced⟩
  | other =>
      cases desk
      exact ⟨_, rfl, rfl, synced, [], .nil, (List.append_nil _).symm⟩

theorem perform_fails (synced : Synced sgx s.bank)
    (nothing : deskPerform s.bank.ledger request = none) :
    ∃ fault, (perform sgx stack request).run s = .error fault := by
  cases performed : (perform sgx stack request).run s with
  | error fault => exact ⟨fault, rfl⟩
  | ok p =>
      obtain ⟨manager, _, wf, _, _⟩ := synced.1
      have owes (one : request.replies = 1) : (deskReply s.bank.ledger request).bind
          (fun answered => if answered.1.Fits then some ([answered.1], false, answered.2) else none)
            ≠ none := by
        obtain ⟨reply, answered, bytes, written, _⟩ := perform_answered one performed
        rw [answered_desk wf answered, Option.bind_some, if_pos written.fits]
        exact Option.some_ne_none _
      cases request with
      | stop => cases nothing
      | other => cases nothing
      | _ => exact absurd nothing (owes rfl)

theorem receive_desk (doc : sgx.Documented) (reliable : sgx.Reliable)
    (synced : Synced sgx s.bank) {received : Received} {replies : List Reply} {stopped : Bool}
    (desk : deskReceive s.bank.ledger received = some (replies, stopped, l'))
    (fits : ledgerLength sgx l' ≤ 65535) :
    ∃ s', (receive sgx stack received).run s = .ok (stopped, s') ∧
      DeskServed sgx s s' replies l' := by
  cases received with
  | closed =>
      cases desk
      exact ⟨s, rfl, .refl synced⟩
  | failed =>
      cases desk
      exact ⟨s, rfl, .refl synced⟩
  | data chunk =>
      rw [deskReceive] at desk
      obtain ⟨request, taken, performed⟩ := Option.bind_eq_some_iff.mp desk
      have taken : requestOf chunk.buf = .ok request := by
        cases found : requestOf chunk.buf with
        | error fault =>
            rw [found] at taken
            cases taken
        | ok parsed =>
            rw [found] at taken
            cases taken
            rfl
      obtain ⟨s', ran, served⟩ := perform_desk stack doc reliable synced
        (requestOf_separated chunk.buf_length taken) performed fits
      exact ⟨s', receive_data.mpr ⟨request, taken, ran⟩, served⟩

theorem receive_fails (synced : Synced sgx s.bank) {received : Received}
    (nothing : deskReceive s.bank.ledger received = none) :
    ∃ fault, (receive sgx stack received).run s = .error fault := by
  cases received with
  | closed => cases nothing
  | failed => cases nothing
  | data chunk =>
      cases found : requestOf chunk.buf with
      | error fault => exact ⟨fault, receive_fault found⟩
      | ok request =>
          rw [deskReceive, found] at nothing
          obtain ⟨fault, failed⟩ := perform_fails stack synced nothing
          refine ⟨fault, ?_⟩
          simp [receive, found, failed]

/-- The loops are the desk: from a synced bank, while the ledgers can be stored, they fail where
the desk has nothing to say, and otherwise they end as the desk does, with its replies written
and its ledger kept. -/
theorem serve_desk (doc : sgx.Documented) (reliable : sgx.Reliable) (synced : Synced sgx s.bank)
    {received : List Received} (fits : DeskFits sgx s.bank.ledger received) :
    (deskServe s.bank.ledger received = none →
        ∃ fault, (serve sgx stack received).run s = .error fault) ∧
      ∀ replies stopped l, deskServe s.bank.ledger received = some (replies, stopped, l) →
        ∃ s', (serve sgx stack received).run s = .ok (stopped, s') ∧
          DeskServed sgx s s' replies l := by
  induction received generalizing s with
  | nil =>
      constructor
      · intro nothing
        cases nothing
      · intro replies stopped l desk
        cases desk
        exact ⟨s, rfl, .refl synced⟩
  | cons first rest ih =>
      rw [deskServe]
      cases found : deskReceive s.bank.ledger first with
      | none =>
          refine ⟨fun _ => ?_, fun replies stopped l desk => ?_⟩
          · obtain ⟨fault, failed⟩ := receive_fails stack synced found
            refine ⟨fault, ?_⟩
            rw [serve, run_bind_of_error failed]
          · cases desk
      | some front =>
          obtain ⟨replies, stopped, l⟩ := front
          obtain ⟨small, later⟩ := fits _ found
          obtain ⟨s1, ran, served⟩ := receive_desk stack doc reliable synced found small
          rw [Option.bind_some]
          cases stopped with
          | true =>
              refine ⟨fun nothing => ?_, fun replies' stopped' l' desk => ?_⟩
              · cases nothing
              · cases desk
                exact ⟨s1, serve_cons.mpr (.inl ⟨ran, rfl⟩), served⟩
          | false =>
              obtain rfl := served.ledger
              obtain ⟨fails, ends⟩ := ih served.synced (later rfl)
              refine ⟨fun nothing => ?_, fun replies' stopped' l' desk => ?_⟩
              · obtain ⟨fault, failed⟩ := fails (Option.map_eq_none_iff.mp nothing)
                refine ⟨fault, ?_⟩
                rw [serve, run_bind_of_ok ran]
                exact failed
              · obtain ⟨⟨replies2, stopped2, l2⟩, behind, same⟩ := Option.map_eq_some_iff.mp desk
                cases same
                obtain ⟨s', served', rest⟩ := ends _ _ _ behind
                exact ⟨s', serve_cons.mpr (.inr ⟨s1, ran, served'⟩), served.trans rest⟩

/-- A server that is started on the file of a ledger is the desk, with nobody logged in. -/
theorem main_desk (doc : sgx.Documented) (reliable : sgx.Reliable) {l : Ledger Bytes Bytes}
    (filed : Filed sgx s.bank.accountFile l) {received : List Received}
    (fits : DeskFits sgx ⟨l.entries, none⟩ received) :
    (deskServe ⟨l.entries, none⟩ received = none →
        ∃ fault, (serverMain sgx stack received).run s = .error fault) ∧
      ∀ replies stopped l', deskServe ⟨l.entries, none⟩ received = some (replies, stopped, l') →
        ∃ s', (serverMain sgx stack received).run s = .ok (stopped, s') ∧
          DeskServed sgx s s' replies l' := by
  obtain ⟨w, step, opened, synced⟩ := opens_filed sgx doc filed
  obtain ⟨result, initialised, _⟩ := run_map_ok.mp step
  have called := callEnclave_run initialised .initManager s.calls s.sent s.console
  rw [← opened] at fits ⊢
  obtain ⟨fails, ends⟩ := serve_desk stack
    (s := ⟨w, s.calls ++ [.initManager], s.sent, s.console⟩) doc reliable synced fits
  rw [serverMain, run_bind_of_ok called]
  refine ⟨fails, fun replies stopped l' desk => ?_⟩
  obtain ⟨s', served, behind⟩ := ends replies stopped l' desk
  exact ⟨s', served, behind.ledger, behind.synced, behind.sent⟩

/-- The server is the desk: started on an empty file, whatever is received and however it is
cut, as long as the desk's ledgers can be stored, it fails where the desk on a new book has
nothing to say, and otherwise it ends as the desk does, with exactly the desk's replies written
and the desk's ledger kept. -/
theorem server_is_desk (doc : sgx.Documented) (reliable : sgx.Reliable)
    (empty : s.bank.accountFile = some []) {received : List Received}
    (fits : DeskFits sgx .blank received) :
    (deskServe .blank received = none →
        ∃ fault, (serverMain sgx stack received).run s = .error fault) ∧
      ∀ replies stopped l, deskServe .blank received = some (replies, stopped, l) →
        ∃ s', (serverMain sgx stack received).run s = .ok (stopped, s') ∧
          DeskServed sgx s s' replies l :=
  main_desk stack doc reliable (empty ▸ filed_empty sgx) fits

section Messages

/-- What a message asks of the ledger. -/
def RequestText.op : RequestText → Op Bytes Bytes
  | .login name password => .enter name.bytes password.bytes
  | .deposit amount => .deposit (amountOf amount.bytes).toNat
  | .withdraw amount => .withdraw (amountOf amount.bytes).toNat

/-- The room that the entry of an operation takes in the file. -/
def recordSize : Op Bytes Bytes → Nat
  | .enter owner secret => owner.length + secret.length + 11
  | _ => 0

variable {l : Ledger Bytes Bytes} {op : Op Bytes Bytes} {answer : Answer}

theorem step_length (step : Step passwordAccepts maxDeposits l (op, answer) l') :
    ledgerLength sgx l' ≤ ledgerLength sgx l + recordSize op := by
  cases step with
  | @opened owner secret _ =>
      simp only [ledgerLength, Ledger.identities, List.map_append, List.map_cons, List.map_nil,
        List.sum_append, List.sum_cons, List.sum_nil, recordSize]
      omega
  | deposited _ known _ =>
      rw [ledgerLength, write_identities known]
      exact Nat.le_add_right _ _
  | withdrawn _ known _ =>
      rw [ledgerLength, write_identities known]
      exact Nat.le_add_right _ _
  | _ => exact Nat.le_add_right _ _

/-- While all balances together have seven digits, every value that is returned has. -/
theorem answerValue_small (step : Step passwordAccepts maxDeposits l (op, answer) l')
    (small : l'.total < 10 ^ 7) : (answerValue answer).toNat < 10 ^ 7 := by
  cases answer with
  | balance amount =>
      have part := step.balance_total
      rw [answerValue, UInt64.toNat_ofNat_of_lt' (by show _ < 2 ^ 64; omega)]
      omega
  | _ => decide

/-- What an operation leaves behind a sound ledger. -/
structure Leaves (sgx : Sgx) (l l' : Ledger Bytes Bytes) (op : Op Bytes Bytes) : Prop where
  sound : l'.Sound
  total : l'.total ≤ l.total + op.payment
  length : ledgerLength sgx l' ≤ ledgerLength sgx l + recordSize op

theorem loginSuccess_fits {deposits : UInt64}
    (short : deposits.toNat < 10 ^ 7 ∨ 2 ^ 64 - 10 ^ 6 < deposits.toNat) :
    (Reply.loginSuccess deposits).Fits := by
  intro size sized
  cases sized
  have digits := printLong_fits.mpr short
  rw [Reply.text, List.length_append]
  show 5 + _ < 13
  omega

/-- A message is answered by a reply that fits, as long as the money in the bank has seven
digits. -/
theorem message_answered (sgx : Sgx) (sound : l.Sound) (text : RequestText)
    (paid : l.total + text.op.payment < 10 ^ 7) :
    ∃ reply l', deskReply l text.request = some (reply, l') ∧ reply.Fits ∧
      Leaves sgx l l' text.op := by
  have leaves {answer : Answer} {l1 : Ledger Bytes Bytes}
      (performed : ledgerPerform l text.op = some (answer, l1)) :
      Leaves sgx l l1 text.op ∧ (answerValue answer).toNat < 10 ^ 7 := by
    obtain ⟨step, sound1⟩ := perform_step sound performed
    have total := step.total
    exact ⟨⟨sound1, total, step_length step⟩, answerValue_small step (by omega)⟩
  cases text with
  | login name password =>
      obtain ⟨answer, l1, i, entered, selected, told⟩ : ∃ answer l1 i,
          ledgerPerform l (.enter name.bytes password.bytes) = some (answer, l1) ∧
            l1.selected = some i ∧ (answer = .granted ∨ answer = .refused) :=
        perform_enter l name.bytes password.bytes
      obtain ⟨left, _⟩ := leaves entered
      have total := left.total
      rw [RequestText.request, deskReply]
      dsimp only
      rw [entered, Option.bind_some]
      rcases told with rfl | rfl
      · have asked : ledgerPerform l1 .inquire = some (.balance (l1.balanceAt i), l1) := by
          rw [ledgerPerform, Ledgers.perform, selected]
          rfl
        have value := answerValue_small (perform_step left.sound asked).1 (by omega)
        dsimp only
        rw [asked, Option.map_some]
        exact ⟨_, l1, rfl, loginSuccess_fits (.inl value), left⟩
      · refine ⟨.loginFail, l1, rfl, fun size sized => ?_, left⟩
        cases sized
  | deposit amount =>
      obtain ⟨answer, l1, dealt⟩ : ∃ answer l1, ledgerPerform l (.deposit
          (amountOf amount.bytes).toNat) = some (answer, l1) := ⟨_, _, rfl⟩
      obtain ⟨left, small⟩ := leaves dealt
      rw [RequestText.request, deskReply, dealt, Option.map_some]
      exact ⟨_, l1, rfl, balance_fits.mpr (.inl small), left⟩
  | withdraw amount =>
      obtain ⟨answer, l1, dealt⟩ : ∃ answer l1, ledgerPerform l (.withdraw
          (amountOf amount.bytes).toNat) = some (answer, l1) := ⟨_, _, rfl⟩
      obtain ⟨left, small⟩ := leaves dealt
      rw [RequestText.request, deskReply, dealt, Option.map_some]
      refine ⟨_, l1, rfl, ?_, left⟩
      dsimp only
      split
      · intro size sized
        cases sized
      · exact balance_fits.mpr (.inl small)

theorem message_received (l : Ledger Bytes Bytes) (message : Message) :
    deskReceive l (.data message.chunk) = (deskReply l message.text.request).bind fun answered =>
      if answered.1.Fits then some ([answered.1], false, answered.2) else none := by
  rw [deskReceive, message.requestOf]
  show deskPerform l message.text.request = _
  cases message.text <;> rfl

theorem messages_desk (messages : List Message) (sound : l.Sound)
    (paid : l.total + (messages.map fun message => message.text.op.payment).sum < 10 ^ 7)
    (room : ledgerLength sgx l + (messages.map fun message => recordSize message.text.op).sum ≤
      65535) :
    DeskFits sgx l (messages.map fun message => .data message.chunk) ∧
      ∃ replies l', deskServe l (messages.map fun message => .data message.chunk) =
        some (replies, false, l') ∧ replies.length = messages.length := by
  induction messages generalizing l with
  | nil => exact ⟨trivial, [], l, rfl, rfl⟩
  | cons message messages ih =>
      rw [List.map_cons, List.sum_cons] at paid room
      obtain ⟨reply, l1, answered, fits, sound1, total, length⟩ :=
        message_answered sgx sound message.text (by omega)
      have received : deskReceive l (.data message.chunk) = some ([reply], false, l1) := by
        rw [message_received, answered, Option.bind_some, if_pos fits]
      obtain ⟨behind, replies, l', served, counted⟩ := ih sound1 (by omega) (by omega)
      refine ⟨?_, reply :: replies, l', ?_, congrArg (· + 1) counted⟩
      · intro first found
        cases received.symm.trans found
        have small : ledgerLength sgx l1 ≤ 65535 := by omega
        exact ⟨small, fun _ => behind⟩
      · rw [List.map_cons, deskServe, received, Option.bind_some, if_neg Bool.false_ne_true,
          served]
        rfl

/-- The server answers every message, as the desk does, while the customers pay in less than
10^7 together and their entries have room in one blob. -/
theorem messages_all_answered (messages : List Message) (doc : sgx.Documented)
    (reliable : sgx.Reliable) (empty : s.bank.accountFile = some [])
    (paid : (messages.map fun message => message.text.op.payment).sum < 10 ^ 7)
    (room : (messages.map fun message => recordSize message.text.op).sum + sgx.headerSize ≤
      65535) :
    ∃ replies s', (serverMain sgx stack (messages.map fun message => .data message.chunk)).run s =
        .ok (false, s') ∧
      deskServe .blank (messages.map fun message => .data message.chunk) =
          some (replies, false, s'.bank.ledger) ∧
        replies.length = messages.length ∧
          ∃ written, List.Forall₂ Reply.Written replies written ∧ s'.sent = s.sent ++ written := by
  have header : ledgerLength sgx .blank = sgx.headerSize := Nat.zero_add _
  have nothing : (Ledger.blank : Ledger Bytes Bytes).total = 0 := rfl
  obtain ⟨fits, replies, l, desk, counted⟩ := messages_desk messages blank_sound
    (by rwa [nothing, Nat.zero_add]) (by rwa [header, Nat.add_comm])
  obtain ⟨s', served, rfl, _, sent⟩ :=
    (main_desk stack doc reliable (empty ▸ filed_empty sgx) fits).2 _ _ _ desk
  exact ⟨replies, s', served, desk, counted, sent⟩

end Messages

section Example

/-- A login, a deposit and a withdrawal of too much. -/
def shortVisit : List Message :=
  [loginMessage, ⟨.deposit ⟨ascii "500", by decide, by decide⟩, by decide⟩,
    ⟨.withdraw ⟨ascii "600", by decide, by decide⟩, by decide⟩]

theorem shortVisit_desk : deskServe .blank (shortVisit.map fun message => .data message.chunk) =
    some ([.loginSuccess 0, .balance 500, .tooBig], false,
      ⟨[⟨ascii "a", ascii "p", 500⟩], some 0⟩) := by
  simp only [shortVisit, List.map_cons, List.map_nil, deskServe, message_received]
  decide +kernel

theorem server_is_desk_visit : ∃ s',
    (serverMain clearSealing cleanStack (shortVisit.map fun message => .data message.chunk)).run
      (.boot []) = .ok (false, s') ∧
    DeskServed clearSealing (.boot []) s' [.loginSuccess 0, .balance 500, .tooBig]
      ⟨[⟨ascii "a", ascii "p", 500⟩], some 0⟩ :=
  (server_is_desk cleanStack clearSealing_documented clearSealing_reliable rfl
    (messages_desk shortVisit blank_sound (by decide) (by decide +kernel)).1).2
      _ _ _ shortVisit_desk

theorem messages_all_answered_visit : ∃ replies s',
    (serverMain clearSealing cleanStack (shortVisit.map fun message => .data message.chunk)).run
      (.boot []) = .ok (false, s') ∧ replies.length = 3 ∧
        ∃ written, List.Forall₂ Reply.Written replies written ∧ s'.sent = written := by
  obtain ⟨replies, s', served, _, counted, sent⟩ :=
    messages_all_answered cleanStack (s := .boot []) shortVisit clearSealing_documented
      clearSealing_reliable rfl (by decide) (by decide +kernel)
  exact ⟨replies, s', served, counted, sent⟩

end Example

end SeccapBank
