import SeccapBank.ReplyRuns

set_option autoImplicit false

/- Client and server together: every request is received whole, and so is its reply. The
client's copy of the balance against the server's. -/
namespace SeccapBank

open CStrings Buffers Fallible Decimals Runs

/-- Both processes. -/
structure Conversation where
  client : Client
  server : Server

/-- One operation: the client's pass, and between its `send` and its `recv` the server's. -/
def ConversationStep (sgx : Sgx) (stack : Stack) (before : Conversation) (op : Operation)
    (after : Conversation) : Prop :=
  ∃ chunk bytes bound,
    (pass op (.received bytes bound)).run before.client = .ok ((), after.client) ∧
      after.client.sends = before.client.sends ++ [Chunk.bytes chunk] ∧
        (receive sgx stack (.data chunk)).run before.server = .ok (false, after.server) ∧
          after.server.sent = before.server.sent ++ [bytes]

/-- What is needed of both sides to go on. -/
structure Conversation.Ready (p : Conversation) : Prop where
  sized : p.client.sendInfo.length = transferSize
  bank : SeccapBank.Ready p.server.bank

/-- What an operation brings about on both sides. -/
structure Conversed (sgx : Sgx) (before : Conversation) (op : Operation) (after : Conversation)
    (reply : Reply) : Prop where
  answered : Answered sgx before.server.bank after.server.bank op.delivered reply
  told : ∃ bytes, reply.Written bytes ∧
    after.client = (before.client.entered op).told reply bytes

variable {sgx : Sgx} {stack : Stack} {p p' start : Conversation} {op : Operation}
  {history : List (Transition Conversation Operation)}

theorem delivered_replies (op : Operation) : op.delivered.replies = 1 := by
  cases op <;> rfl

theorem Answered.mayReceive {w w' : World} {reply : Reply}
    (answered : Answered sgx w w' op.delivered reply) : op.MayReceive reply := by
  cases op <;> cases answered <;> trivial

theorem Served.ready {s s' : Server} {calls : List Ecall} {replies : Nat}
    (served : Served sgx s calls replies s') (ready : SeccapBank.Ready s.bank) :
    SeccapBank.Ready s'.bank := by
  obtain ⟨⟨_, run, _⟩, _, _⟩ := served
  exact run.invariant SeccapBank.Ready ready fun _ _ _ before step => ecall_ready sgx before step

/-- A step of the conversation delivers the operation and tells its reply. -/
theorem conversed (ready : p.Ready) (step : ConversationStep sgx stack p op p') :
    p'.Ready ∧ ∃ reply, Conversed sgx p op p' reply := by
  obtain ⟨chunk, bytes, bound, passed, sends, received, sent⟩ := step
  obtain ⟨readable, _, exchanged⟩ := pass_iff.mp passed
  obtain ⟨_, again, buffer, sends'⟩ := exchange_run op.depositPrint (.received bytes bound)
    (p.client.entered op)
  cases exchanged.symm.trans again
  have whole : (printed p.client.sendInfo op).length = receiveBufSize :=
    printed_length ready.sized readable
  have message : chunk.bytes = printed p.client.sendInfo op :=
    List.singleton_inj.mp (List.append_cancel_left (sends.symm.trans sends'))
  obtain ⟨request, taken, performed⟩ := receive_data.mp received
  rw [Chunk.buf_whole (by rw [message, whole]), message] at taken
  have separated := separated_of_taken ready.sized readable taken
  have asked := requestOf_message ready.sized readable separated
  rw [taken] at asked
  split at asked
  · cases asked
    obtain ⟨_, _, _, served⟩ := perform_served performed
    obtain ⟨reply, answered, bytes', written, sent'⟩ :=
      perform_answered (delivered_replies op) performed
    obtain rfl : bytes = bytes' :=
      List.singleton_inj.mp (List.append_cancel_left (sent.symm.trans sent'))
    rw [answered.mayReceive.depositPrint, exchange_told written] at exchanged
    have told := (Prod.mk.inj (Except.ok.inj exchanged)).2
    refine ⟨⟨?_, served.ready ready.bank⟩, reply, answered, bytes, written, told.symm⟩
    rw [buffer]
    exact whole
  · cases asked

/-- While the commas fit, an answer of the enclave whose reply fits is delivered. -/
theorem conversation_returns (stack : Stack) (ready : p.Ready) (readable : op.Readable)
    (separated : op.Separated)
    (commas : op.text.count comma +
      (p.client.sendInfo.drop (op.text.length + 1)).count comma ≤ 3)
    {w' : World} {reply : Reply} (answered : Answered sgx p.server.bank w' op.delivered reply)
    (fits : reply.Fits) :
    ∃ p', ConversationStep sgx stack p op p' ∧ p'.server.bank = w' ∧
      ∃ bytes, p'.client = (p.client.entered op).told reply bytes := by
  obtain ⟨s', served, bank, bytes, written, sent⟩ := service_returns stack answered fits
  have whole : (printed p.client.sendInfo op).length = receiveBufSize :=
    printed_length ready.sized readable
  have room : op.text.length < p.client.sendInfo.length := by
    rw [ready.sized]
    exact op.text_length readable
  have running : op.delivered ≠ .stop := by
    cases op <;> nofun
  have performed : (perform sgx stack op.delivered).run p.server =
      .ok (false, { s' with console := s'.console ++ ["[Server]: 完了\n"] }) := by
    rw [perform, if_neg running, run_bind_of_ok served]
    rfl
  have taken : requestOf (Chunk.ofWhole _ whole).buf = .ok op.delivered := by
    rw [Chunk.buf_whole whole]
    show requestOf (printed p.client.sendInfo op) = _
    rw [requestOf_message ready.sized readable separated, if_pos commas]
  have told := exchange_told written written.bound (p.client.entered op)
  rw [← answered.mayReceive.depositPrint] at told
  exact ⟨⟨_, _⟩, ⟨.ofWhole _ whole, bytes, written.bound, pass_iff.mpr ⟨readable, room, told⟩, rfl,
    receive_data.mpr ⟨_, taken, performed⟩, sent⟩, bank, bytes, rfl⟩

/-- The balance that the client keeps behind an operation which left this state: that of
a deposit, or of a withdrawal of no more than is left. -/
def keptBalance (kept : UInt64) (op : Operation) (w : World) : UInt64 :=
  match op with
  | .login .. => kept
  | .deposit _ => w.moneyAnswer
  | .withdraw amount => if w.moneyAnswer < wireAmount amount then kept else w.moneyAnswer

theorem conversed_preAmount {reply : Reply} (ready : p.Ready)
    (conversed : Conversed sgx p op p' reply) :
    p'.client.preAmount = keptBalance p.client.preAmount op p'.server.bank := by
  obtain ⟨answered, bytes, _, told⟩ := conversed
  obtain ⟨manager, wf⟩ := ready.bank.1
  rw [told]
  show reply.preAmount p.client.preAmount = _
  cases op with
  | login name password =>
      cases answered <;> rfl
  | deposit amount =>
      obtain rfl := answered_deposit wf answered
      rfl
  | withdraw amount =>
      obtain ⟨_, rfl⟩ := (answered_withdraw wf).mp answered
      rw [withdrawReply, keptBalance]
      split <;> rfl

/-- The enclave refuses this withdrawal, whose amount exceeds the balance of the account
that is logged in. -/
def RefusedFor (account : Account) (move : Transition Conversation Operation) : Prop :=
  ∃ amount, move.label = .withdraw amount ∧
    move.pre.server.bank.currentAccount = some account ∧ account.deposits < wireAmount amount

/-- The client says so with an amount, and that is the balance of the account. -/
def ShowsBalance (account : Account) (move : Transition Conversation Operation) : Prop :=
  (∃ lines, move.post.client.console = lines ++
    [tooBigLine, amountLine move.pre.client.preAmount.toInt64.toInt, "\n"]) ∧
      move.pre.client.preAmount = account.deposits

/-- At every refused withdrawal the balance is the one that was kept last. -/
def RefusalsKept : UInt64 → List (Transition Conversation Operation) → Prop
  | _, [] => True
  | kept, move :: later =>
      (∀ account, RefusedFor account move → account.deposits = kept) ∧
        RefusalsKept (keptBalance kept move.label move.post.server.bank) later

/-- What is kept behind a history. -/
def keptBehind (kept : UInt64) (history : List (Transition Conversation Operation)) : UInt64 :=
  history.foldl (fun kept move => keptBalance kept move.label move.post.server.bank) kept

theorem refusalsKept_concat (kept : UInt64) (move : Transition Conversation Operation) :
    RefusalsKept kept (history ++ [move]) ↔ RefusalsKept kept history ∧
      ∀ account, RefusedFor account move → account.deposits = keptBehind kept history := by
  induction history generalizing kept with
  | nil =>
      rw [List.nil_append, RefusalsKept, RefusalsKept, and_comm]
      rfl
  | cons first history ih =>
      rw [List.cons_append, RefusalsKept, RefusalsKept, ih, and_assoc]
      rfl

theorem refused_reply {account : Account} {reply : Reply} {w w' : World} {amount : UInt64}
    (ready : SeccapBank.Ready w) (current : w.currentAccount = some account)
    (short : account.deposits < amount) (answered : Answered sgx w w' (.withdraw amount) reply) :
    reply = .tooBig := by
  obtain ⟨⟨manager, wf⟩, _⟩ := ready
  obtain ⟨⟨value, made⟩, rfl⟩ := (answered_withdraw wf).mp answered
  have after := (ecallMy_current sgx wf current made).2
  have same : (account.withdraw amount).2 = account := by
    rw [Account.withdraw, if_pos short]
  rw [withdrawReply, moneyAnswer_some after, same, if_pos short]

/-- A refusal shows what the client kept, so that this alone decides. -/
theorem shows_iff {account : Account} (ready : p.Ready) (step : ConversationStep sgx stack p op p')
    (refused : RefusedFor account ⟨p, op, p'⟩) :
    ShowsBalance account ⟨p, op, p'⟩ ↔ account.deposits = p.client.preAmount := by
  obtain ⟨amount, rfl, current, short⟩ := refused
  obtain ⟨_, reply, answered, bytes, _, told⟩ := conversed ready step
  obtain rfl := refused_reply ready.bank current short answered
  constructor
  · exact fun shows => shows.2.symm
  · intro same
    exact ⟨⟨_, congrArg Client.console told⟩, same.symm⟩

theorem conversation_kept (ready : start.Ready)
    (run : Run (ConversationStep sgx stack) start history p) :
    p.Ready ∧ p.client.preAmount = keptBehind start.client.preAmount history := by
  induction run with
  | nil => exact ⟨ready, rfl⟩
  | snoc _ last ih =>
      obtain ⟨before, kept⟩ := ih
      obtain ⟨after, reply, step⟩ := conversed before last
      refine ⟨after, ?_⟩
      rw [conversed_preAmount before step, kept, keptBehind, keptBehind, List.foldl_append]
      rfl

/-- From any state of both sides, every refusal shows the balance exactly when at every
refusal the balance is the one kept last. -/
theorem shown_iff_kept (ready : start.Ready)
    (run : Run (ConversationStep sgx stack) start history p) :
    (∀ move ∈ history, ∀ account, RefusedFor account move → ShowsBalance account move) ↔
      RefusalsKept start.client.preAmount history := by
  induction run with
  | nil => exact iff_of_true (fun _ member => nomatch member) trivial
  | snoc run last ih =>
      obtain ⟨before, kept⟩ := conversation_kept ready run
      rw [refusalsKept_concat, List.forall_mem_append, List.forall_mem_singleton, ih, ← kept]
      apply and_congr_right
      intro _
      apply forall₂_congr
      intro account refused
      exact shows_iff before last refused

/-- From the start of both processes, every refusal shows the balance exactly when it is
the one that the last deposit, or the last withdrawal of no more than it left, has left
behind, and 0 where there was none. -/
theorem refusals_shown_iff {sendInfo receiveData : Bytes} {s : Server}
    (sized : sendInfo.length = transferSize) (reached : Reached sgx s.bank)
    (run : Run (ConversationStep sgx stack) ⟨freshClient sendInfo receiveData, s⟩ history p) :
    (∀ move ∈ history, ∀ account, RefusedFor account move → ShowsBalance account move) ↔
      RefusalsKept 0 history :=
  shown_iff_kept ⟨sized, reached.ready sgx⟩ run

theorem withdraw_returns (stack : Stack) (ready : p.Ready) {account : Account}
    (current : p.server.bank.currentAccount = some account)
    (small : account.deposits.toNat < 10 ^ 7) {amount : UInt64}
    (whole : wireAmount amount = amount)
    (commas : (Operation.withdraw amount).text.count comma +
      (p.client.sendInfo.drop ((Operation.withdraw amount).text.length + 1)).count comma ≤ 3) :
    ∃ p', ConversationStep sgx stack p (.withdraw amount) p' ∧
      p'.server.bank.currentAccount = some (account.withdraw amount).2 ∧
        p'.client.sendInfo = printed p.client.sendInfo (.withdraw amount) := by
  obtain ⟨w', after, answers⟩ := @withdraw_current sgx _ ready.bank account current amount
  have answered : Answered sgx p.server.bank w' (Operation.withdraw amount).delivered
      (withdrawReply w' amount) := by
    rw [Operation.delivered, whole]
    exact (answers w' _).mpr ⟨rfl, rfl⟩
  have fits : (withdrawReply w' amount).Fits := by
    apply withdrawReply_fits
    rw [moneyAnswer_some after]
    have left := account.withdraw_deposits amount
    split at left
    · omega
    · omega
  obtain ⟨p', step, rfl, bytes, told⟩ :=
    @conversation_returns sgx p (.withdraw amount) stack ready trivial trivial commas _ _ answered
      fits
  exact ⟨p', step, after, congrArg Client.sendInfo told⟩

def owner : Operation :=
  .login ⟨ascii "a", by decide, savedName_nulFree, by decide +kernel⟩
    ⟨ascii "p", by decide, savedPassword_nulFree, by decide +kernel⟩

/-- A client and a server that have just been started, on the file of one account. -/
def opened : Conversation := ⟨zeroedClient, ⟨savedBank, [.initManager], [], []⟩⟩

theorem opened_reached : Reached clearSealing opened.server.bank :=
  ⟨_, _, _, _, savedBank_opening, .nil⟩

theorem opened_ready : opened.Ready :=
  ⟨calloc_length _, opened_reached.ready clearSealing⟩

theorem owner_enters : ∃ p, ConversationStep clearSealing cleanStack opened owner p ∧
    p.server.bank.currentAccount = some savedAccount ∧
      p.client.sendInfo = printed (calloc transferSize) owner := by
  have answered : Answered clearSealing opened.server.bank ownerBank owner.delivered
      (.loginSuccess 100) := by
    have made : (ecallNewAccount clearSealing ⟨ascii "a", by decide⟩ ⟨ascii "p", by decide⟩).run
        savedBank = .ok (.processSuccess, ownerBank) := by
      decide +kernel
    exact .login made nofun (by decide +kernel)
  have readable : owner.Readable := ⟨by decide, by decide⟩
  have separated : owner.Separated := ⟨by decide, by decide⟩
  have fits : (Reply.loginSuccess 100).Fits := by
    intro size sized
    cases sized
    decide +kernel
  obtain ⟨p, step, bank, bytes, told⟩ := conversation_returns cleanStack opened_ready readable
    separated (by decide +kernel) answered fits
  refine ⟨p, step, ?_, congrArg Client.sendInfo told⟩
  rw [bank]
  decide +kernel

theorem int_whole {amount : UInt64} (small : amount.toNat < 2 ^ 31) : wireAmount amount = amount :=
  (wireAmount_eq_iff amount).mpr (.inl small)

/-- A withdrawal of less than half the balance refreshes what a later refusal shows. -/
theorem refusal_shows_kept : ∃ history p,
    Run (ConversationStep clearSealing cleanStack) opened history p ∧
      history.map (·.label) = [owner, .withdraw 20, .withdraw 90] ∧
        (∃ move ∈ history, ∃ account, RefusedFor account move) ∧
          ∀ move ∈ history, ∀ account, RefusedFor account move → ShowsBalance account move := by
  have whole20 : wireAmount 20 = 20 := int_whole (by decide)
  have whole90 : wireAmount 90 = 90 := int_whole (by decide)
  obtain ⟨p1, first, current1, buffer1⟩ := owner_enters
  have ready1 := (conversed opened_ready first).1
  obtain ⟨p2, second, current2, buffer2⟩ := @withdraw_returns clearSealing p1 cleanStack ready1
    savedAccount current1 (by decide) 20 whole20 (by rw [buffer1]; decide +kernel)
  have ready2 := (conversed ready1 second).1
  obtain ⟨p3, third, _, _⟩ := @withdraw_returns clearSealing p2 cleanStack ready2 _ current2
    (by decide) 90 whole90 (by rw [buffer2, buffer1]; decide +kernel)
  have run := ((Run.nil.snoc first).snoc second).snoc third
  refine ⟨_, p3, run, rfl, ⟨⟨p2, .withdraw 90, p3⟩, by simp, _, 90, rfl, current2, ?_⟩, ?_⟩
  · rw [whole90]
    decide
  · apply (refusals_shown_iff (calloc_length _) opened_reached run).mpr
    refine ⟨?login, ?accepted, ?refused, trivial⟩
    case login =>
      rintro account ⟨amount, label, _⟩
      cases label
    case accepted =>
      rintro account ⟨amount, label, current, short⟩
      cases label
      cases current1.symm.trans current
      rw [whole20] at short
      exact absurd short (by decide)
    case refused =>
      rintro account ⟨amount, label, current, short⟩
      cases current2.symm.trans current
      show _ = if p2.server.bank.moneyAnswer < wireAmount 20 then _ else p2.server.bank.moneyAnswer
      rw [moneyAnswer_some current2, whole20, if_neg (by decide)]

/-- Behind a login that showed a balance of 100, a refusal shows 0. -/
theorem refusal_shows_nothing : ∃ history p,
    Run (ConversationStep clearSealing cleanStack) opened history p ∧
      history.map (·.label) = [owner, .withdraw 200] ∧
        (∃ lines, p.client.console = lines ++ [tooBigLine, amountLine 0, "\n"]) ∧
          p.server.bank.moneyAnswer = 100 ∧
            ¬ ∀ move ∈ history, ∀ account, RefusedFor account move → ShowsBalance account move := by
  have whole200 : wireAmount 200 = 200 := int_whole (by decide)
  obtain ⟨p1, first, current1, buffer1⟩ := owner_enters
  have ready1 := (conversed opened_ready first).1
  obtain ⟨p2, second, current2, _⟩ := @withdraw_returns clearSealing p1 cleanStack ready1
    savedAccount current1 (by decide) 200 whole200 (by rw [buffer1]; decide +kernel)
  have kept : p1.client.preAmount = 0 :=
    (conversation_kept opened_ready (Run.nil.snoc first)).2
  have refused : RefusedFor savedAccount ⟨p1, .withdraw 200, p2⟩ := by
    refine ⟨200, rfl, current1, ?_⟩
    rw [whole200]
    decide
  obtain ⟨_, reply, answered, bytes, _, told⟩ := conversed ready1 second
  rw [Operation.delivered, whole200] at answered
  obtain rfl := refused_reply ready1.bank current1 (by decide) answered
  refine ⟨_, p2, (Run.nil.snoc first).snoc second, rfl, ?_, moneyAnswer_some current2, ?_⟩
  · rw [told]
    show ∃ lines, _ ++ [tooBigLine, amountLine p1.client.preAmount.toInt64.toInt, "\n"] = _
    rw [kept]
    exact ⟨_, rfl⟩
  · intro all
    have shown := (all ⟨p1, .withdraw 200, p2⟩ (by simp) savedAccount refused).2
    have zero : p1.client.preAmount = 100 := shown
    rw [kept] at zero
    exact absurd zero (by decide)

end SeccapBank
