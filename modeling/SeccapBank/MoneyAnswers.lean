import SeccapBank.EnclaveRuns

set_option autoImplicit false

/- The two money ecalls, and what the value that one of them returns says about what it has
done. -/
namespace SeccapBank

open CStrings Fallible Runs

inductive Dealing where
  | deposit
  | withdrawal

def Dealing.ecall : Dealing → UInt64 → Ecall
  | .deposit, amount => .myDeposit amount
  | .withdrawal, amount => .myWithdraw amount

def Dealing.deal : Dealing → Account → UInt64 → ProcessResult × Account
  | .deposit => Account.deposit
  | .withdrawal => Account.withdraw

/-- The balance does not leave room for the amount, or does not cover it. -/
def Dealing.Exceeds : Dealing → Nat → Nat → Prop
  | .deposit, balance, amount => 2 ^ 64 - 1 < balance + amount
  | .withdrawal, balance, amount => balance < amount

variable {sgx : Sgx} {w w' w₁ w₂ : World} {dealing : Dealing}

theorem deal_refused (account : Account) (amount : UInt64) :
    (dealing.deal account amount).1 ≠ .processSuccess ↔
      dealing.Exceeds account.deposits.toNat amount.toNat := by
  cases dealing with
  | deposit => rw [Dealing.deal, Ne, Account.deposit_success, Nat.not_le, Dealing.Exceeds]
  | withdrawal => rw [Dealing.deal, Ne, Account.withdraw_success, Nat.not_le, Dealing.Exceeds]

theorem deal_unchanged {account : Account} {amount : UInt64}
    (refused : (dealing.deal account amount).1 ≠ .processSuccess) :
    (dealing.deal account amount).2 = account := by
  cases dealing with
  | deposit => exact Account.deposit_refused refused
  | withdrawal => exact Account.withdraw_refused refused

theorem dealing_exec (argument : UInt64) :
    (dealing.ecall argument).exec sgx = .value <$> ecallMy sgx (dealMy dealing.deal) argument := by
  cases dealing <;> rfl

/-- What a deal that is carried out leaves. -/
def Dealing.left : Dealing → Nat → Nat → Nat
  | .deposit, balance, amount => balance + amount
  | .withdrawal, balance, amount => balance - amount

theorem deal_left {account : Account} {amount : UInt64}
    (taken : ¬ dealing.Exceeds account.deposits.toNat amount.toNat) :
    (dealing.deal account amount).2.deposits.toNat =
      dealing.left account.deposits.toNat amount.toNat := by
  cases dealing with
  | deposit => exact (account.deposit_deposits amount).trans (if_pos (Nat.not_lt.mp taken))
  | withdrawal => exact (account.withdraw_deposits amount).trans (if_pos (Nat.not_lt.mp taken))

inductive Outcome where
  | notLoggedIn
  | refused
  | executed
  deriving DecidableEq

/-- The status that `Deposit` and `Withdraw` compute for the current account, and that
nobody above them looks at. -/
def Dealing.outcome (dealing : Dealing) (amount : UInt64) : Option Account → Outcome
  | none => .notLoggedIn
  | some account =>
      if (dealing.deal account amount).1 = .processSuccess then .executed else .refused

/-- What the ecall returns instead. -/
def Dealing.answer (dealing : Dealing) (amount : UInt64) : Option Account → UInt64
  | none => ProcessResult.needLogout.toUInt64
  | some account => (dealing.deal account amount).2.deposits

section Answers

variable {amount : UInt64}

theorem outcome_executed {account : Account} :
    dealing.outcome amount (some account) = .executed ↔
      ¬ dealing.Exceeds account.deposits.toNat amount.toNat := by
  rw [← deal_refused, not_not, Dealing.outcome]
  split <;> simp [*]

theorem outcome_refused {account : Account} :
    dealing.outcome amount (some account) = .refused ↔
      dealing.Exceeds account.deposits.toNat amount.toNat := by
  rw [← deal_refused, Dealing.outcome]
  split <;> simp [*]

theorem answer_refused {account : Account}
    (exceeds : dealing.Exceeds account.deposits.toNat amount.toNat) :
    dealing.answer amount (some account) = account.deposits := by
  rw [Dealing.answer, deal_unchanged (deal_refused account amount |>.mpr exceeds)]

theorem dealing_returns (sgx : Sgx) (ready : Ready w) (dealing : Dealing) (amount : UInt64) :
    (∃ w', EcallStep sgx w (dealing.ecall amount, .value (dealing.answer amount w.currentAccount))
      w') ∧
      ∀ value w', EcallStep sgx w (dealing.ecall amount, .value value) w' →
        value = dealing.answer amount w.currentAccount := by
  obtain ⟨⟨manager, wf⟩, present⟩ := ready
  obtain ⟨old, file⟩ := Option.ne_none_iff_exists'.mp present
  have only (value : UInt64) (w' : World)
      (made : EcallStep sgx w (dealing.ecall amount, .value value) w') :
      value = dealing.answer amount w.currentAccount := by
    rw [EcallStep, dealing_exec] at made
    obtain ⟨answered, returned, same⟩ := run_map_ok.mp made
    cases same
    cases current : w.currentAccount with
    | none => exact (ecallMy_nobody sgx wf current returned).1
    | some account => exact (ecallMy_current sgx wf current returned).1
  obtain ⟨value, w', returned⟩ := ecallMy_returns sgx wf file dealing.deal amount
  have made : EcallStep sgx w (dealing.ecall amount, .value value) w' := by
    rw [EcallStep, dealing_exec]
    exact run_map_ok.mpr ⟨value, returned, rfl⟩
  refine ⟨⟨w', ?_⟩, only⟩
  rwa [← only value w' made]

end Answers

/-- Where a call returns the same value from both states, it was carried out in both or in
neither. -/
def TellsExecution (sgx : Sgx) (dealing : Dealing) (amount : UInt64) (first second : World) :
    Prop :=
  ∀ value first' second', EcallStep sgx first (dealing.ecall amount, .value value) first' →
    EcallStep sgx second (dealing.ecall amount, .value value) second' →
      (dealing.outcome amount first.currentAccount = .executed ↔
        dealing.outcome amount second.currentAccount = .executed)

/-- Where a call returns the same value from both states, the same became of it. -/
def TellsOutcome (sgx : Sgx) (dealing : Dealing) (amount : UInt64) (first second : World) : Prop :=
  ∀ value first' second', EcallStep sgx first (dealing.ecall amount, .value value) first' →
    EcallStep sgx second (dealing.ecall amount, .value value) second' →
      dealing.outcome amount first.currentAccount = dealing.outcome amount second.currentAccount

/-- One account takes the amount and is left with what the other call returns: the balance
of an account that refuses it, or the 2 that means nobody is logged in. -/
def Dealing.Hides (dealing : Dealing) (amount : UInt64) (taker other : Option Account) : Prop :=
  ∃ account, taker = some account ∧ ¬ dealing.Exceeds account.deposits.toNat amount.toNat ∧
    match other with
    | none => dealing.left account.deposits.toNat amount.toNat = 2
    | some refuser => dealing.Exceeds refuser.deposits.toNat amount.toNat ∧
        dealing.left account.deposits.toNat amount.toNat = refuser.deposits.toNat

/-- An account with a balance of 2 refuses the amount, and in the other state nobody is
logged in. -/
def Dealing.HidesRefusal (dealing : Dealing) (amount : UInt64) (refuser other : Option Account) :
    Prop :=
  other = none ∧ ∃ account, refuser = some account ∧ account.deposits.toNat = 2 ∧
    dealing.Exceeds 2 amount.toNat

theorem hides_iff {amount : UInt64} {taker other : Option Account} :
    dealing.Hides amount taker other ↔ dealing.outcome amount taker = .executed ∧
      dealing.outcome amount other ≠ .executed ∧
        dealing.answer amount taker = dealing.answer amount other := by
  constructor
  · rintro ⟨account, rfl, taken, leaves⟩
    have total := deal_left taken
    refine ⟨outcome_executed.mpr taken, ?_⟩
    cases other with
    | none =>
        have kept : Outcome.notLoggedIn ≠ .executed := by decide
        exact ⟨kept, UInt64.toNat_inj.mp (total.trans leaves)⟩
    | some refuser =>
        obtain ⟨exceeds, same⟩ := leaves
        rw [Ne, outcome_executed, not_not, answer_refused exceeds]
        exact ⟨exceeds, UInt64.toNat_inj.mp (total.trans same)⟩
  · rintro ⟨executed, kept, same⟩
    cases taker with
    | none => cases executed
    | some account =>
        have taken := outcome_executed.mp executed
        have total := (deal_left taken).symm.trans (congrArg UInt64.toNat same)
        refine ⟨account, rfl, taken, ?_⟩
        cases other with
        | none => exact total
        | some refuser =>
            rw [Ne, outcome_executed, not_not] at kept
            rw [answer_refused kept] at total
            exact ⟨kept, total⟩

theorem hidesRefusal_iff {amount : UInt64} {refuser other : Option Account} :
    dealing.HidesRefusal amount refuser other ↔ dealing.outcome amount refuser = .refused ∧
      dealing.outcome amount other = .notLoggedIn ∧
        dealing.answer amount refuser = dealing.answer amount other := by
  constructor
  · rintro ⟨rfl, account, rfl, two, exceeds⟩
    rw [← two] at exceeds
    rw [outcome_refused, answer_refused exceeds]
    exact ⟨exceeds, rfl, UInt64.toNat_inj.mp two⟩
  · rintro ⟨refused, nobody, same⟩
    cases other with
    | some account =>
        rw [Dealing.outcome] at nobody
        split at nobody
        · cases nobody
        · cases nobody
    | none =>
        cases refuser with
        | none => cases refused
        | some account =>
            have exceeds := outcome_refused.mp refused
            rw [answer_refused exceeds] at same
            have two : account.deposits.toNat = 2 := congrArg UInt64.toNat same
            rw [two] at exceeds
            exact ⟨rfl, account, rfl, two, exceeds⟩

/-- Something that does not depend on the value holds whenever the returned values agree,
exactly if it does when the answers do. -/
theorem same_answer {first second : World} (ready : Ready first) (ready' : Ready second)
    {amount : UInt64} {P : Prop} :
    (∀ value first' second', EcallStep sgx first (dealing.ecall amount, .value value) first' →
      EcallStep sgx second (dealing.ecall amount, .value value) second' → P) ↔
        (dealing.answer amount first.currentAccount =
          dealing.answer amount second.currentAccount → P) := by
  obtain ⟨⟨first', made⟩, only⟩ := dealing_returns sgx ready dealing amount
  obtain ⟨⟨second', made'⟩, only'⟩ := dealing_returns sgx ready' dealing amount
  constructor
  · intro tells same
    rw [← same] at made'
    exact tells _ first' second' made made'
  · intro tells value _ _ returned returned'
    exact tells ((only value _ returned).symm.trans (only' value _ returned'))

section Tells

variable {first second : World} {amount : UInt64}

theorem tellsExecution_iff (ready : Ready first) (ready' : Ready second) :
    TellsExecution sgx dealing amount first second ↔
      ¬ dealing.Hides amount first.currentAccount second.currentAccount ∧
        ¬ dealing.Hides amount second.currentAccount first.currentAccount := by
  rw [TellsExecution, same_answer ready ready', hides_iff, hides_iff,
    eq_comm (a := dealing.answer amount second.currentAccount)]
  tauto

theorem tellsOutcome_iff (ready : Ready first) (ready' : Ready second) :
    TellsOutcome sgx dealing amount first second ↔
      TellsExecution sgx dealing amount first second ∧
        ¬ dealing.HidesRefusal amount first.currentAccount second.currentAccount ∧
          ¬ dealing.HidesRefusal amount second.currentAccount first.currentAccount := by
  rw [TellsOutcome, TellsExecution, same_answer ready ready', same_answer ready ready',
    hidesRefusal_iff, hidesRefusal_iff, eq_comm (a := dealing.answer amount second.currentAccount)]
  cases dealing.outcome amount first.currentAccount <;>
    cases dealing.outcome amount second.currentAccount <;> simp

end Tells

/-- The value tells whether the call was carried out unless one state hides it behind the
other, and it tells all three outcomes apart if in addition no refusal is hidden. -/
theorem answer_tells_iff {first second : World} (ready : Ready first) (ready' : Ready second)
    (dealing : Dealing) (amount : UInt64) :
    (TellsExecution sgx dealing amount first second ↔
      ¬ dealing.Hides amount first.currentAccount second.currentAccount ∧
        ¬ dealing.Hides amount second.currentAccount first.currentAccount) ∧
      (TellsOutcome sgx dealing amount first second ↔
        (¬ dealing.Hides amount first.currentAccount second.currentAccount ∧
          ¬ dealing.Hides amount second.currentAccount first.currentAccount) ∧
            ¬ dealing.HidesRefusal amount first.currentAccount second.currentAccount ∧
              ¬ dealing.HidesRefusal amount second.currentAccount first.currentAccount) := by
  have execution : TellsExecution sgx dealing amount first second ↔ _ :=
    tellsExecution_iff ready ready'
  exact ⟨execution, by rw [tellsOutcome_iff ready ready', execution]⟩

theorem savedBank_ready : Ready savedBank := (initManager_ready clearSealing savedBank_opening).1

theorem ownerBank_ready : Ready ownerBank := ownerBank_reached.ready clearSealing

theorem answer_tells_withdrawal : TellsOutcome clearSealing .withdrawal 60 savedBank ownerBank := by
  apply (answer_tells_iff savedBank_ready ownerBank_ready .withdrawal 60).2.mpr
  simp only [hides_iff, hidesRefusal_iff]
  decide +kernel

/-- A bank with one account, whose owner is logged in. -/
def bankWith (account : Account) : World :=
  ((World.boot []).install [account]).select (installedManager (.boot []) [account]) 0

theorem bankWith_ready (account : Account) : Ready (bankWith account) := by
  have installed := install_wellFormed (.boot []) [account]
  exact ⟨⟨_, select_wellFormed installed (List.mem_singleton_self _)⟩, Option.some_ne_none _⟩

theorem no_amount_tells (sgx : Sgx) (dealing : Dealing) (amount : UInt64) :
    ∃ first second, Ready first ∧ Ready second ∧
      ¬ TellsExecution sgx dealing amount first second := by
  have hidden {taker : Account} {other : World} (ready : Ready other)
      (hides : dealing.Hides amount (some taker) other.currentAccount) :
      ∃ first second, Ready first ∧ Ready second ∧
        ¬ TellsExecution sgx dealing amount first second := by
    refine ⟨_, other, bankWith_ready taker, ready, fun tells => ?_⟩
    rw [tellsExecution_iff (bankWith_ready taker) ready] at tells
    exact tells.1 hides
  have bound := amount.toNat_lt
  by_cases zero : amount.toNat = 0
  · have nobody : Ready emptyBank := (initManager_ready sgx (emptyBank_opening sgx)).1
    refine hidden nobody ⟨Account.new [] [] 2, rfl, ?_, ?_⟩
    · rw [zero]
      cases dealing with
      | deposit => exact Nat.not_lt.mpr (by decide)
      | withdrawal => exact Nat.not_lt_zero _
    · change dealing.left 2 amount.toNat = 2
      rw [zero]
      cases dealing <;> rfl
  · cases dealing with
    | deposit =>
        have room : (uint64Max - amount).toNat = 2 ^ 64 - 1 - amount.toNat :=
          UInt64.toNat_sub_of_le _ _ (UInt64.le_iff_toNat_le.mpr (Nat.le_sub_one_of_lt bound))
        refine hidden (bankWith_ready (Account.new [] [] uint64Max))
          ⟨Account.new [] [] (uint64Max - amount), rfl, ?_, ?_, ?_⟩
        · change ¬ 2 ^ 64 - 1 < (uint64Max - amount).toNat + amount.toNat
          omega
        · change 2 ^ 64 - 1 < 2 ^ 64 - 1 + amount.toNat
          omega
        · change (uint64Max - amount).toNat + amount.toNat = 2 ^ 64 - 1
          omega
    | withdrawal =>
        refine hidden (bankWith_ready (Account.new [] [] 0))
          ⟨Account.new [] [] amount, rfl, Nat.lt_irrefl _, ?_, Nat.sub_self _⟩
        exact Nat.pos_of_ne_zero zero

/-- The owner withdraws 98 of 100, and the call returns the 2 that is left. With nobody
logged in it returns 2 as well. -/
theorem answer_ambiguous :
    Reached clearSealing savedBank ∧ Reached clearSealing ownerBank ∧
      (∃ w', EcallStep clearSealing savedBank (.myWithdraw 98, .value 2) w') ∧
        (∃ w', EcallStep clearSealing ownerBank (.myWithdraw 98, .value 2) w') ∧
          ¬ TellsExecution clearSealing .withdrawal 98 savedBank ownerBank := by
  obtain ⟨⟨first, made⟩, _⟩ := dealing_returns clearSealing savedBank_ready .withdrawal 98
  obtain ⟨⟨second, made'⟩, _⟩ := dealing_returns clearSealing ownerBank_ready .withdrawal 98
  refine ⟨⟨_, _, _, _, savedBank_opening, .nil⟩, ownerBank_reached, ⟨first, made⟩,
    ⟨second, made'⟩, fun tells => ?_⟩
  have both := tells 2 first second made made'
  revert both
  decide +kernel

end SeccapBank
