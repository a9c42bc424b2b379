import SeccapBank.EnclaveRuns
import SeccapBank.Server

set_option autoImplicit false

/- What the server writes back for a request, and how far it tells what the enclave did. -/
namespace SeccapBank

open CStrings Buffers Fallible Decimals Runs

/-- What a reply says. -/
inductive Reply where
  | loginSuccess (deposits : UInt64)
  | loginFail
  | balance (deposits : UInt64)
  | tooBig

def Reply.text : Reply → Bytes
  | .loginSuccess deposits => ascii "login" ++ printLong deposits.toInt64.toInt
  | .loginFail => ascii "login fail."
  | .balance deposits => printLong deposits.toInt64.toInt
  | .tooBig => ascii "too big."

/-- The size of the array that a reply is printed into. The other two are literals. -/
def Reply.sendDataSize : Reply → Option Nat
  | .loginSuccess _ => some 13
  | .loginFail => none
  | .balance _ => some 8
  | .tooBig => none

/-- The text and its NUL fit the array. -/
def Reply.Fits (reply : Reply) : Prop := ∀ size ∈ reply.sendDataSize, reply.text.length < size

/-- The bytes that a reply is written as: the whole array where it was printed into one,
and a literal without its NUL. -/
def Reply.Written (reply : Reply) (bytes : Bytes) : Prop :=
  match reply.sendDataSize with
  | some size => ∃ rest, bytes = reply.text ++ 0 :: rest ∧ bytes.length = size
  | none => bytes = reply.text

/-- What the enclave does for a request, and the reply that the server derives from the
value it returns. -/
inductive Answered (sgx : Sgx) (w w' : World) : Request → Reply → Prop where
  | refused {name password : CString}
      (made : (ecallNewAccount sgx name password).run w = .ok (.accountSetFail, w')) :
      Answered sgx w w' (.login name password) .loginFail
  | login {name password : CString} {result : ProcessResult} {entered : World}
      {deposits : UInt64} (made : (ecallNewAccount sgx name password).run w = .ok (result, entered))
      (accepted : result ≠ .accountSetFail)
      (asked : ecallMyInquiry.run entered = .ok (deposits, w')) :
      Answered sgx w w' (.login name password) (.loginSuccess deposits)
  | deposit {amount deposits : UInt64}
      (made : (ecallMyDeposit sgx amount).run w = .ok (deposits, w')) :
      Answered sgx w w' (.deposit amount) (.balance deposits)
  | tooBig {amount deposits : UInt64}
      (made : (ecallMyWithdraw sgx amount).run w = .ok (deposits, w'))
      (below : deposits < amount) : Answered sgx w w' (.withdraw amount) .tooBig
  | withdraw {amount deposits : UInt64}
      (made : (ecallMyWithdraw sgx amount).run w = .ok (deposits, w'))
      (covers : ¬ deposits < amount) : Answered sgx w w' (.withdraw amount) (.balance deposits)

/-- Between these states the server wrote this reply, and the bank moved so. -/
structure Replies (s : Server) (reply : Reply) (s' : Server) (w' : World) : Prop where
  bank : s'.bank = w'
  sent : ∃ bytes, reply.Written bytes ∧ s'.sent = s.sent ++ [bytes]

variable {sgx : Sgx} {stack : Stack} {s s' : Server} {w w' : World}

/-- What `writeDeposits` leaves is its reply. -/
theorem writeDeposits_replies {size : Nat} {label : Bytes} {deposits : UInt64} (reply : Reply)
    (text : reply.text = label ++ printLong deposits.toInt64.toInt)
    (sized : reply.sendDataSize = some size)
    (written : (writeDeposits stack size label deposits).run s = .ok ((), s')) :
    Replies s reply s' s.bank := by
  obtain ⟨fits, rfl⟩ := writeDeposits_ok.mp written
  refine ⟨rfl, _, ?_, rfl⟩
  rw [← text] at fits ⊢
  rw [Reply.Written, sized]
  refine ⟨((List.range size).map (stack s.sent.length)).drop (reply.text.length + 1), ?_, ?_⟩
  · rw [blit, List.length_append, List.length_singleton, List.append_assoc]
    rfl
  · rw [blit_length, List.length_map, List.length_range, List.length_append,
      List.length_singleton]
    omega

theorem writeDeposits_fits {size : Nat} {label : Bytes} {deposits : UInt64} (reply : Reply)
    (text : reply.text = label ++ printLong deposits.toInt64.toInt)
    (sized : reply.sendDataSize = some size) (fits : reply.Fits) (s : Server) :
    ∃ s', (writeDeposits stack size label deposits).run s = .ok ((), s') ∧
      Replies s reply s' s.bank := by
  have room := fits size sized
  rw [text] at room
  obtain ⟨s', written⟩ : ∃ s', (writeDeposits stack size label deposits).run s = .ok ((), s') :=
    ⟨_, writeDeposits_ok.mpr ⟨room, rfl⟩⟩
  exact ⟨s', written, writeDeposits_replies reply text sized written⟩

/-- A request that was served and owes a reply was answered by one. -/
theorem service_answered (request : Request) (owes : request.replies = 1)
    (returned : (service sgx stack request).run s = .ok ((), s')) :
    ∃ reply w', Answered sgx s.bank w' request reply ∧ Replies s reply s' w' := by
  cases request with
  | login name password =>
      rw [service, SeccapBank.login, run_bind_of_ok (cout_run _ s)] at returned
      obtain ⟨result, s1, called, rest⟩ := run_bind_ok.mp returned
      obtain ⟨entered, made, rfl⟩ := callEnclave_ok.mp called
      split at rest
      · rename_i refused
        subst refused
        cases rest
        exact ⟨_, _, .refused made, rfl, _, rfl, rfl⟩
      · rename_i accepted
        obtain ⟨deposits, s2, inquired, written⟩ := run_bind_ok.mp rest
        obtain ⟨bank, asked, rfl⟩ := callEnclave_ok.mp inquired
        have replied := writeDeposits_replies (.loginSuccess deposits) rfl rfl written
        exact ⟨_, _, .login made accepted asked, replied.bank, replied.sent⟩
  | deposit amount =>
      rw [service, SeccapBank.deposit, run_bind_of_ok (cout_run _ s)] at returned
      obtain ⟨deposits, s1, called, written⟩ := run_bind_ok.mp returned
      obtain ⟨bank, made, rfl⟩ := callEnclave_ok.mp called
      have replied := writeDeposits_replies (.balance deposits) rfl rfl written
      exact ⟨_, _, .deposit made, replied.bank, replied.sent⟩
  | withdraw amount =>
      rw [service, SeccapBank.withdraw, run_bind_of_ok (cout_run _ s)] at returned
      obtain ⟨deposits, s1, called, rest⟩ := run_bind_ok.mp returned
      obtain ⟨bank, made, rfl⟩ := callEnclave_ok.mp called
      split at rest
      · rename_i below
        cases rest
        exact ⟨_, _, .tooBig made below, rfl, _, rfl, rfl⟩
      · rename_i covers
        have replied := writeDeposits_replies (.balance deposits) rfl rfl rest
        exact ⟨_, _, .withdraw made covers, replied.bank, replied.sent⟩
  | stop => cases owes
  | other => cases owes

theorem perform_answered {request : Request} {stopped : Bool} (owes : request.replies = 1)
    (returned : (perform sgx stack request).run s = .ok (stopped, s')) :
    ∃ reply, Answered sgx s.bank s'.bank request reply ∧
      ∃ bytes, reply.Written bytes ∧ s'.sent = s.sent ++ [bytes] := by
  unfold perform at returned
  split at returned
  · rename_i stop
    subst stop
    cases owes
  · obtain ⟨_, s1, served, rest⟩ := run_bind_ok.mp returned
    obtain ⟨reply, w', answered, rfl, replied⟩ := service_answered request owes served
    cases rest
    exact ⟨reply, answered, replied⟩

/-- An answer whose reply fits its array is given. -/
theorem service_returns (stack : Stack) {request : Request} {reply : Reply}
    (answered : Answered sgx s.bank w' request reply) (fits : reply.Fits) :
    ∃ s', (service sgx stack request).run s = .ok ((), s') ∧ Replies s reply s' w' := by
  cases answered with
  | refused made =>
      rw [service, SeccapBank.login, run_bind_of_ok (cout_run _ s),
        run_bind_of_ok (callEnclave_run made _ _ _ _), if_pos rfl]
      exact ⟨_, rfl, rfl, _, rfl, rfl⟩
  | login made accepted asked =>
      rw [service, SeccapBank.login, run_bind_of_ok (cout_run _ s),
        run_bind_of_ok (callEnclave_run made _ _ _ _), if_neg accepted,
        run_bind_of_ok (callEnclave_run asked _ _ _ _)]
      obtain ⟨s', written, replied⟩ := writeDeposits_fits _ rfl rfl fits _
      exact ⟨s', written, replied.bank, replied.sent⟩
  | deposit made =>
      rw [service, SeccapBank.deposit, run_bind_of_ok (cout_run _ s),
        run_bind_of_ok (callEnclave_run made _ _ _ _)]
      obtain ⟨s', written, replied⟩ := @writeDeposits_fits stack 8 [] _ _ rfl rfl fits _
      exact ⟨s', written, replied.bank, replied.sent⟩
  | tooBig made below =>
      rw [service, SeccapBank.withdraw, run_bind_of_ok (cout_run _ s),
        run_bind_of_ok (callEnclave_run made _ _ _ _), if_pos below]
      exact ⟨_, rfl, rfl, _, rfl, rfl⟩
  | withdraw made covers =>
      rw [service, SeccapBank.withdraw, run_bind_of_ok (cout_run _ s),
        run_bind_of_ok (callEnclave_run made _ _ _ _), if_neg covers]
      obtain ⟨s', written, replied⟩ := @writeDeposits_fits stack 8 [] _ _ rfl rfl fits _
      exact ⟨s', written, replied.bank, replied.sent⟩

/-- What a money call has returned that left this state. -/
def World.moneyAnswer (w : World) : UInt64 :=
  match w.currentAccount with
  | some account => account.deposits
  | none => ProcessResult.needLogout.toUInt64

theorem moneyAnswer_some {account : Account} (current : w.currentAccount = some account) :
    w.moneyAnswer = account.deposits := by
  rw [World.moneyAnswer, current]

theorem ecallMy_answer {manager : DealManager} (wf : WellFormed w manager)
    {deal : Account → UInt64 → ProcessResult × Account} {amount value : UInt64}
    (returned : (ecallMy sgx (dealMy deal) amount).run w = .ok (value, w')) :
    value = w'.moneyAnswer := by
  cases current : w.currentAccount with
  | none =>
      obtain ⟨answered, same⟩ := ecallMy_nobody sgx wf current returned
      rw [answered, same, World.moneyAnswer, current]
  | some account =>
      obtain ⟨answered, after⟩ := ecallMy_current sgx wf current returned
      rw [answered, moneyAnswer_some after]

/-- The reply to a withdrawal that left this state: the server takes it for refused
when less is left than was asked for. -/
def withdrawReply (w : World) (amount : UInt64) : Reply :=
  if w.moneyAnswer < amount then .tooBig else .balance w.moneyAnswer

theorem answered_deposit {manager : DealManager} (wf : WellFormed w manager) {amount : UInt64}
    {reply : Reply} (answered : Answered sgx w w' (.deposit amount) reply) :
    reply = .balance w'.moneyAnswer := by
  cases answered with
  | deposit made => rw [← ecallMy_answer wf made]

theorem answered_withdraw {manager : DealManager} (wf : WellFormed w manager) {amount : UInt64}
    {reply : Reply} : Answered sgx w w' (.withdraw amount) reply ↔
      (∃ value, (ecallMyWithdraw sgx amount).run w = .ok (value, w')) ∧
        reply = withdrawReply w' amount := by
  constructor
  · intro answered
    cases answered with
    | tooBig made below =>
        refine ⟨⟨_, made⟩, ?_⟩
        rw [withdrawReply, ← ecallMy_answer wf made, if_pos below]
    | withdraw made covers =>
        refine ⟨⟨_, made⟩, ?_⟩
        rw [withdrawReply, ← ecallMy_answer wf made, if_neg covers]
  · rintro ⟨⟨value, made⟩, rfl⟩
    rw [withdrawReply, ← ecallMy_answer wf made]
    split
    · rename_i below
      exact .tooBig made below
    · rename_i covers
      exact .withdraw made covers

theorem printLong_fits {deposits : UInt64} : (printLong deposits.toInt64.toInt).length < 8 ↔
    deposits.toNat < 10 ^ 7 ∨ 2 ^ 64 - 10 ^ 6 < deposits.toNat := by
  have bound := deposits.toNat_lt
  have limits := @printLong_length_le deposits.toInt64.toInt 6 (by decide)
  rw [toInt64_toInt] at limits ⊢
  rw [Nat.lt_succ_iff, limits]
  omega

theorem balance_fits {deposits : UInt64} : (Reply.balance deposits).Fits ↔
    deposits.toNat < 10 ^ 7 ∨ 2 ^ 64 - 10 ^ 6 < deposits.toNat := by
  rw [← printLong_fits]
  constructor
  · intro fits
    exact fits 8 rfl
  · intro short size sized
    cases sized
    exact short

theorem withdrawReply_fits {amount : UInt64}
    (small : ¬ w.moneyAnswer < amount → w.moneyAnswer.toNat < 10 ^ 7) :
    (withdrawReply w amount).Fits := by
  unfold withdrawReply
  split
  · exact nofun
  · rename_i covers
    exact balance_fits.mpr (.inl (small covers))

/-- What the bytes of a reply say about a withdrawal, with the account before and after it. -/
structure TruthfulReply (before after : Account) (amount : UInt64) (bytes : Bytes) : Prop where
  refusal : bytes = ascii "too big." ↔
    before.deposits < amount ∧ after.deposits = before.deposits
  acceptance : amount ≤ before.deposits →
    after.deposits = before.deposits - amount ∧ cstr bytes = decimal after.deposits.toNat

/-- The withdraw branch writes one reply, and it is truthful. -/
def WithdrawTruthful (sgx : Sgx) (stack : Stack) (s : Server) (account : Account)
    (amount : UInt64) : Prop :=
  ∃ s' after bytes, (withdraw sgx stack amount).run s = .ok ((), s') ∧
    s'.sent = s.sent ++ [bytes] ∧ s'.bank.currentAccount = some after ∧
      TruthfulReply account after amount bytes

theorem withdraw_current (ready : Ready w) {account : Account}
    (current : w.currentAccount = some account) (amount : UInt64) :
    ∃ w', w'.currentAccount = some (account.withdraw amount).2 ∧
      ∀ bank reply, Answered sgx w bank (.withdraw amount) reply ↔
        bank = w' ∧ reply = withdrawReply w' amount := by
  obtain ⟨⟨manager, wf⟩, present⟩ := ready
  obtain ⟨old, file⟩ := Option.ne_none_iff_exists'.mp present
  obtain ⟨value, w', made⟩ := ecallMy_returns sgx wf file Account.withdraw amount
  refine ⟨w', (ecallMy_current sgx wf current made).2, fun bank reply => ?_⟩
  rw [answered_withdraw wf]
  constructor
  · rintro ⟨⟨value', made'⟩, said⟩
    have same := made.symm.trans made'
    cases same
    exact ⟨rfl, said⟩
  · rintro ⟨rfl, said⟩
    exact ⟨⟨value, made⟩, said⟩

theorem Reply.Written.balance_text {deposits : UInt64} {bytes : Bytes}
    (written : (Reply.balance deposits).Written bytes) :
    cstr bytes = printLong deposits.toInt64.toInt ∧
      (printLong deposits.toInt64.toInt).length < 8 := by
  obtain ⟨rest, rfl, length⟩ := written
  have nulFree : (0 : UInt8) ∉ printLong deposits.toInt64.toInt :=
    printLong_free (by decide) (by decide) _
  refine ⟨cstr_append_nul nulFree rest, ?_⟩
  rw [List.length_append, List.length_cons] at length
  change (printLong deposits.toInt64.toInt).length + (rest.length + 1) = 8 at length
  omega

/-- A reply that was written is truthful exactly when the withdrawal is refused, or takes
at most half of the balance and leaves a number of at most seven digits. -/
theorem truthfulReply_iff {account : Account} {amount : UInt64} {bytes : Bytes}
    (after : w'.currentAccount = some (account.withdraw amount).2)
    (written : (withdrawReply w' amount).Written bytes) :
    TruthfulReply account (account.withdraw amount).2 amount bytes ↔
      account.deposits < amount ∨ 2 * amount.toNat ≤ account.deposits.toNat ∧
        account.deposits.toNat - amount.toNat < 10 ^ 7 := by
  have left := account.withdraw_deposits amount
  rw [withdrawReply, moneyAnswer_some after] at written
  by_cases short : account.deposits < amount
  · have same : (account.withdraw amount).2 = account := by
      rw [Account.withdraw, if_pos short]
    rw [same] at written ⊢
    rw [if_pos short] at written
    refine iff_of_true ⟨iff_of_true written ⟨short, rfl⟩, fun covers => ?_⟩ (.inl short)
    exact absurd short (UInt64.not_lt.mpr covers)
  · have covers : amount.toNat ≤ account.deposits.toNat := by
      rw [UInt64.lt_iff_toNat_lt] at short
      omega
    rw [if_pos covers] at left
    have taken : (account.withdraw amount).2.deposits = account.deposits - amount := by
      rw [Account.withdraw, if_neg short]
    by_cases below : (account.withdraw amount).2.deposits < amount
    · rw [if_pos below] at written
      rw [UInt64.lt_iff_toNat_lt, left] at below
      apply iff_of_false
      · intro truthful
        exact short (truthful.refusal.mp written).1
      · rintro (refused | ⟨half, _⟩)
        · exact short refused
        · omega
    · rw [if_neg below] at written
      rw [UInt64.lt_iff_toNat_lt, left] at below
      obtain ⟨text, fits⟩ := written.balance_text
      constructor
      · intro truthful
        obtain ⟨_, said⟩ := truthful.acceptance (UInt64.le_iff_toNat_le.mpr covers)
        have number := printLong_eq_decimal.mp (text.symm.trans said)
        have digits := printLong_fits.mp fits
        rw [toInt64_toInt] at number
        right
        omega
      · rintro (refused | ⟨half, small⟩)
        · exact absurd refused short
        · refine ⟨iff_of_false ?_ fun refused => short refused.1, fun _ => ⟨taken, ?_⟩⟩
          · intro literal
            rw [literal] at text
            have letter : (116 : UInt8) ∈ cstr (ascii "too big.") := by decide
            rw [text] at letter
            exact printLong_free (by decide) (by decide) _ letter
          · rw [text, printLong_eq_decimal, toInt64_toInt]
            omega

/-- The server is truthful about a withdrawal exactly when the enclave refuses it, or when
it takes at most half of the balance and leaves a number of at most seven digits. -/
theorem withdraw_truthful_iff {account : Account} (reached : Reached sgx s.bank)
    (current : s.bank.currentAccount = some account) (amount : UInt64) :
    WithdrawTruthful sgx stack s account amount ↔
      account.deposits < amount ∨ 2 * amount.toNat ≤ account.deposits.toNat ∧
        account.deposits.toNat - amount.toNat < 10 ^ 7 := by
  obtain ⟨w', after, answers⟩ := @withdraw_current sgx _ (reached.ready sgx) _ current amount
  constructor
  · rintro ⟨s', after', bytes, returned, sent, current', truthful⟩
    obtain ⟨reply, bank, answered, rfl, bytes', written, sent'⟩ :=
      service_answered (.withdraw amount) rfl returned
    obtain ⟨same, rfl⟩ := (answers _ _).mp answered
    rw [same, after] at current'
    obtain rfl := Option.some.inj current'
    obtain rfl : bytes = bytes' := by
      rw [sent] at sent'
      exact List.singleton_inj.mp (List.append_cancel_left sent')
    exact (truthfulReply_iff after written).mp truthful
  · intro condition
    have answered := (answers w' _).mpr ⟨rfl, rfl⟩
    have fits : (withdrawReply w' amount).Fits := by
      apply withdrawReply_fits
      rw [moneyAnswer_some after]
      have left := account.withdraw_deposits amount
      rw [UInt64.lt_iff_toNat_lt] at condition ⊢
      split at left
      · omega
      · omega
    obtain ⟨s', returned, rfl, bytes, written, sent⟩ := service_returns stack answered fits
    exact ⟨s', _, bytes, returned, sent, after, (truthfulReply_iff after written).mpr condition⟩

def ownerServer : Server :=
  ⟨ownerBank, [.initManager, ownerLogin, .myInquiry], [ascii "login100" ++ calloc 5], []⟩

theorem withdraw_truthful_half :
    WithdrawTruthful clearSealing cleanStack ownerServer savedAccount 50 :=
  (withdraw_truthful_iff ownerBank_reached (by decide +kernel) 50).mpr (.inr (by decide))

/-- A withdrawal of 60 from 100 is carried out, and answered as if it had been refused. -/
theorem withdraw_untruthful : Reached clearSealing ownerServer.bank ∧
    ownerServer.bank.currentAccount = some savedAccount ∧
      (∃ s', (withdraw clearSealing cleanStack 60).run ownerServer = .ok ((), s') ∧
        s'.sent = ownerServer.sent ++ [ascii "too big."] ∧ s'.bank.balanceAt 0 = 40) ∧
          ¬ WithdrawTruthful clearSealing cleanStack ownerServer savedAccount 60 := by
  have evaluated : ((withdraw clearSealing cleanStack 60).run ownerServer).map
      (fun p => (p.2.sent, p.2.bank.balanceAt 0)) =
        .ok (ownerServer.sent ++ [ascii "too big."], 40) := by
    decide +kernel
  obtain ⟨⟨_, s'⟩, returned, facts⟩ := map_ok evaluated
  obtain ⟨sent, balance⟩ := Prod.mk.inj facts
  refine ⟨ownerBank_reached, by decide +kernel, ⟨s', returned, sent, balance⟩, ?_⟩
  rintro ⟨_, after, bytes, again, sent', _, truthful⟩
  cases returned.symm.trans again
  obtain rfl : bytes = ascii "too big." := by
    rw [sent] at sent'
    exact (List.singleton_inj.mp (List.append_cancel_left sent')).symm
  have refused := (truthful.refusal.mp rfl).1
  revert refused
  decide

end SeccapBank
