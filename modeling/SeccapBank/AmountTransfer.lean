import SeccapBank.MoneyAnswers
import SeccapBank.RequestAgreement
import SeccapBank.ServerReplies

set_option autoImplicit false

/- What becomes of the amount of a deposit or a withdrawal between the client's prompt and
the enclave. -/
namespace SeccapBank

open CStrings Buffers Fallible Decimals Runs Ledgers

def Dealing.operation : Dealing → UInt64 → Operation
  | .deposit, amount => .deposit amount
  | .withdrawal, amount => .withdraw amount

def Dealing.request : Dealing → UInt64 → Request
  | .deposit, amount => .deposit amount
  | .withdrawal, amount => .withdraw amount

/-- The enclave has no account to change, or refuses to, and no account changes. -/
def Rejected (sgx : Sgx) (w : World) (dealing : Dealing) (argument : UInt64) : Prop :=
  (∀ account, w.currentAccount = some account →
    (dealing.deal account argument).1 ≠ .processSuccess) ∧
      ∃ returned w', EcallStep sgx w (dealing.ecall argument, returned) w' ∧
        w'.accounts = w.accounts

/-- What the user enters is printed, sent and received whole, and asks for a money call
with the amount entered, or for one that is rejected. -/
def AmountSurvives (sgx : Sgx) (c : Client) (w : World) (dealing : Dealing) (amount : UInt64) :
    Prop :=
  ∃ depositPrint c' argument,
    (enter (dealing.operation amount).entry).run c = .ok (some depositPrint, c') ∧
      (∃ chunk : Chunk, chunk.bytes = c'.sendInfo ∧
        requestOf chunk.buf = .ok (dealing.request argument)) ∧
          (argument = amount ∨ Rejected sgx w dealing argument)

/-- The low 32 bits of a number, continued by their first bit to 64. -/
def signedLow (n : Nat) : Nat :=
  if n % 2 ^ 32 < 2 ^ 31 then n % 2 ^ 32 else 2 ^ 64 - 2 ^ 32 + n % 2 ^ 32

variable {sgx : Sgx} {c : Client} {w w' : World} {dealing : Dealing}

theorem accounts_unchanged {manager : DealManager} (wf : WellFormed w manager) {argument : UInt64}
    (refused : ∀ account, w.currentAccount = some account →
      (dealing.deal account argument).1 ≠ .processSuccess) {value : UInt64}
    (returned : (ecallMy sgx (dealMy dealing.deal) argument).run w = .ok (value, w')) :
    w'.accounts = w.accounts := by
  rcases ecallMy_cases sgx wf returned with ⟨_, _, rfl⟩ | ⟨ptr, account, pointed, known, _, store⟩
  · rfl
  · have unchanged := deal_unchanged (refused account (currentAccount_eq wf pointed known))
    rw [unchanged] at store
    have rewritten := rewrite_wellFormed wf ptr account
    obtain ⟨heap, same⟩ := accountListStoreStorage_frame sgx rewritten.present rewritten.valid store
    have member := wf.current ptr pointed
    have here := wf.getElem? member known
    obtain ⟨inside, found⟩ := List.getElem?_eq_some_iff.mp here
    rw [accounts_of_frame heap same, rewrite_accounts _ wf member, ← found, List.set_getElem_self]

/-- An enclave that can be asked rejects exactly what exceeds the current balance, and
everything while nobody is logged in. -/
theorem rejected_iff (ready : Ready w) (argument : UInt64) :
    Rejected sgx w dealing argument ↔ ∀ account, w.currentAccount = some account →
      dealing.Exceeds account.deposits.toNat argument.toNat := by
  simp only [← deal_refused]
  constructor
  · exact fun rejected => rejected.1
  · intro refused
    obtain ⟨⟨manager, wf⟩, present⟩ := ready
    obtain ⟨old, file⟩ := Option.ne_none_iff_exists'.mp present
    obtain ⟨value, w', returned⟩ := ecallMy_returns sgx wf file dealing.deal argument
    refine ⟨refused, .value value, w', ?_, accounts_unchanged wf refused returned⟩
    rw [EcallStep, dealing_exec]
    exact run_map_ok.mpr ⟨value, returned, rfl⟩

theorem entered_request (zeroed : c.sendInfo = calloc transferSize) (amount : UInt64) :
    ∃ depositPrint c', (enter (dealing.operation amount).entry).run c =
        .ok (some depositPrint, c') ∧ c'.sendInfo.length = receiveBufSize ∧
      requestOf c'.sendInfo = .ok (dealing.request (wireAmount amount)) := by
  have readable : (dealing.operation amount).Readable := by
    cases dealing <;> trivial
  have separated : (dealing.operation amount).Separated := by
    cases dealing <;> trivial
  have delivered : (dealing.operation amount).delivered = dealing.request (wireAmount amount) := by
    cases dealing <;> rfl
  have sized : c.sendInfo.length = transferSize := by rw [zeroed, calloc_length]
  have listed := (dealing.operation amount).entry_operation
  obtain ⟨depositPrint, c', entered, buffer, _⟩ :=
    enter_run sized (dealing.operation amount).entry_stays
      (fun op same => Option.some.inj (listed.symm.trans same) ▸ readable)
  rw [formatted, listed, zeroed] at buffer
  dsimp only at buffer
  refine ⟨depositPrint, c', entered, ?_, ?_⟩
  · rw [buffer]
    exact printed_length (calloc_length _) readable
  · rw [buffer, requestOf_zeroed readable separated, delivered]

theorem amount_survives (zeroed : c.sendInfo = calloc transferSize) (amount : UInt64) :
    AmountSurvives sgx c w dealing amount ↔
      wireAmount amount = amount ∨ Rejected sgx w dealing (wireAmount amount) := by
  obtain ⟨depositPrint, c', entered, whole, asked⟩ :=
    @entered_request _ dealing zeroed amount
  constructor
  · rintro ⟨_, c'', argument, again, ⟨chunk, bytes, found⟩, survives⟩
    cases entered.symm.trans again
    rw [Chunk.buf_whole (by rw [bytes, whole]), bytes, asked] at found
    obtain rfl : wireAmount amount = argument := by
      cases dealing with
      | deposit => exact Request.deposit.inj (Except.ok.inj found)
      | withdrawal => exact Request.withdraw.inj (Except.ok.inj found)
    exact survives
  · intro survives
    refine ⟨depositPrint, c', _, entered, ⟨.ofWhole c'.sendInfo whole, rfl, ?_⟩, survives⟩
    rw [Chunk.buf_whole whole]
    exact asked

/-- An amount reaches the enclave, or is rejected, exactly below 2^31, from 2^64 - 2^31 on,
while nobody is logged in, and where its low 32 bits, continued by their sign, exceed what
the balance allows. -/
theorem amount_survives_iff (reached : Reached sgx w) (zeroed : c.sendInfo = calloc transferSize)
    (dealing : Dealing) (amount : UInt64) :
    AmountSurvives sgx c w dealing amount ↔
      amount.toNat < 2 ^ 31 ∨ 2 ^ 64 - 2 ^ 31 ≤ amount.toNat ∨
        ∀ account, w.currentAccount = some account →
          dealing.Exceeds account.deposits.toNat (signedLow amount.toNat) := by
  have low : (wireAmount amount).toNat = signedLow amount.toNat := wireAmount_toNat amount
  rw [amount_survives zeroed, wireAmount_eq_iff, rejected_iff (reached.ready sgx), low, or_assoc]

theorem amount_survives_int :
    AmountSurvives clearSealing zeroedClient ownerBank .withdrawal 2147483647 :=
  (amount_survives_iff ownerBank_reached rfl .withdrawal 2147483647).mpr (.inl (by decide))

/-- A deposit of 2^31 arrives as 2^64 - 2^31, and an account with a balance of 100 takes it. -/
theorem amount_grows : Reached clearSealing ownerBank ∧
    zeroedClient.sendInfo = calloc transferSize ∧
      requestOf (printed (calloc transferSize) (.deposit 2147483648)) =
        .ok (.deposit 18446744071562067968) ∧
          (savedAccount.deposit 18446744071562067968).1 = .processSuccess ∧
            ¬ AmountSurvives clearSealing zeroedClient ownerBank .deposit 2147483648 := by
  have arrives : wireAmount 2147483648 = 18446744071562067968 := by
    rw [← UInt64.toNat_inj, wireAmount_toNat]
    decide
  refine ⟨ownerBank_reached, rfl, ?_, by decide, ?_⟩
  · rw [@requestOf_zeroed (.deposit 2147483648) trivial trivial, Operation.delivered, arrives]
  · rw [amount_survives rfl, arrives]
    rintro (same | ⟨refused, _⟩)
    · revert same
      decide
    · exact refused savedAccount (by decide +kernel) (by decide)

end SeccapBank
