import SeccapBank.Durability

set_option autoImplicit false

/- What a name or a password with separators in it does to the stored list. -/
namespace SeccapBank

open CStrings Buffers Fallible Runs

variable (sgx : Sgx) {before w w' start : World} {manager : DealManager} {history : List Move}

/-- The total of all balances. -/
def totalDeposits (accountList : List Account) : Nat :=
  (accountList.map fun account => account.deposits.toNat).sum

/-- The new list after a registration: the old one, or the old one and the new account. -/
def Registered (old new : List Account) (name password : CString) : Prop :=
  new = old ∨ new = old ++ [Account.newAccount name.bytes password.bytes]

/-- A registration and a restart behind it both return, bring back the old accounts and
at most the new one with balance 0, and keep the total of all balances. -/
def KeepsAccounts (w : World) (name password : CString) : Prop :=
  ∃ result w1 w2, EcallStep sgx w (.newAccount name password, result) w1 ∧
    EcallStep sgx w1 (.initManager, .result .processSuccess) w2 ∧
      Registered w.accounts w2.accounts name password ∧
        totalDeposits w2.accounts = totalDeposits w.accounts

theorem registered_total {old new : List Account} {name password : CString}
    (registered : Registered old new name password) : totalDeposits new = totalDeposits old := by
  rcases registered with rfl | rfl
  · rfl
  · simp [totalDeposits, Account.newAccount]

theorem newAccount_list (wf : WellFormed w manager) {name password : CString} {result : Returned}
    (step : EcallStep sgx w (.newAccount name password, result) w') :
    ((∃ account ∈ w.accounts, account.name = name.bytes) ∧ w'.accounts = w.accounts ∧
        w'.sealCalls = w.sealCalls ∧ w'.accountFile = w.accountFile) ∨
      ((∀ account ∈ w.accounts, account.name ≠ name.bytes) ∧
        w'.accounts = w.accounts ++ [Account.newAccount name.bytes password.bytes]) := by
  obtain ⟨answer, inner, _⟩ := run_map_ok.mp step
  rcases newAccount_cases sgx wf inner with ⟨ptr, account, member, known, named, rfl, _⟩ |
    ⟨fresh, _, store⟩
  · exact .inl ⟨⟨account, List.mem_of_getElem? (wf.getElem? member known), named⟩,
      select_accounts wf.present ptr, rfl, rfl⟩
  · have enrolled := enroll_wellFormed (Account.newAccount name.bytes password.bytes) wf
    obtain ⟨heap, same⟩ := accountListStoreStorage_frame sgx enrolled.present enrolled.valid store
    rw [accounts_of_frame heap same, enroll_accounts _ wf]
    exact .inr ⟨fresh, rfl⟩

theorem marshalled_append_ne (accountList : List Account) (account : Account) :
    marshalled (accountList ++ [account]) ≠ marshalled accountList := by
  intro same
  have lengths := congrArg List.length same
  rw [marshalled_append, marshalled_singleton, List.length_append, record_length] at lengths
  omega

/-- The new list is small enough to be sealed, where it is new. -/
def SmallEnough (w : World) (name password : CString) : Prop :=
  (∀ account ∈ w.accounts, account.name ≠ name.bytes) →
    sealedLength sgx .new (w.accounts ++ [Account.newAccount name.bytes password.bytes]) ≤ 65535

/-- No account of the list, and no new one, has a separator in its name or password. -/
def NoSeparator (w : World) (name password : CString) : Prop :=
  (∀ account ∈ w.accounts, CommaFree account) ∧
    ((∃ account ∈ w.accounts, account.name = name.bytes) ∨
      comma ∉ name.bytes ∧ comma ∉ password.bytes)

theorem newAccount_within (wf : WellFormed w manager) {name password : CString} {result : Returned}
    (small : SmallEnough sgx w name password)
    (step : EcallStep sgx w (.newAccount name password, result) w') :
    StoresWithin sgx 65535 ⟨w, (.newAccount name password, result), w'⟩ := by
  intro stores
  rcases newAccount_list sgx wf step with ⟨_, _, calls, _⟩ | ⟨fresh, accounts⟩
  · unfold Stores at stores
    simp only [calls] at stores
    exact absurd stores (Nat.lt_irrefl _)
  · simp only [accounts]
    exact small fresh

/-- A restart that brings the accounts back has met no separator. -/
theorem noSeparator_of_keeps (doc : sgx.Documented) (reliable : sgx.Reliable) (held : Held sgx w)
    {name password : CString} (small : SmallEnough sgx w name password)
    (keeps : KeepsAccounts sgx w name password) : NoSeparator w name password := by
  obtain ⟨result, w1, w2, step, restart, registered, _⟩ := keeps
  obtain ⟨manager, content, wf, _, _⟩ := id held
  have held1 := held_step sgx doc reliable held step (newAccount_within sgx wf small step)
  obtain ⟨_, _, _, same, clean⟩ := held_restart sgx doc held1 restart
  rcases newAccount_list sgx wf step with ⟨known, accounts, _⟩ | ⟨_, accounts⟩
  · rw [accounts] at same
    rcases registered with loaded | loaded
    · exact ⟨loaded ▸ clean, .inl known⟩
    · rw [loaded] at same
      exact absurd same (marshalled_append_ne _ _)
  · rw [accounts] at same
    rcases registered with loaded | loaded
    · rw [loaded] at same
      exact absurd same.symm (marshalled_append_ne _ _)
    · rw [loaded] at clean
      exact ⟨fun account member => clean account (List.mem_append_left _ member),
        .inr (clean _ (List.mem_append_right _ (List.mem_singleton_self _)))⟩

theorem keeps_of_noSeparator (doc : sgx.Documented) (reliable : sgx.Reliable) (held : Held sgx w)
    {name password : CString} (small : SmallEnough sgx w name password)
    (separated : NoSeparator w name password) : KeepsAccounts sgx w name password := by
  obtain ⟨clean, fine⟩ := separated
  obtain ⟨manager, content, wf, file, _⟩ := id held
  obtain ⟨result, w1, step⟩ := ecall_returns sgx wf (by simp [file])
    (show Ecall.newAccount name password ≠ .initManager by simp) nofun
  have held1 := held_step sgx doc reliable held step (newAccount_within sgx wf small step)
  have list : Registered w.accounts w1.accounts name password ∧
      ∀ account ∈ w1.accounts, CommaFree account := by
    rcases newAccount_list sgx wf step with ⟨_, accounts, _⟩ | ⟨fresh, accounts⟩
    · rw [accounts]
      exact ⟨.inl rfl, clean⟩
    · have cleanNew : comma ∉ name.bytes ∧ comma ∉ password.bytes := by
        rcases fine with ⟨account, member, named⟩ | fine
        · exact absurd named (fresh account member)
        · exact fine
      rw [accounts]
      refine ⟨.inr rfl, fun account member => ?_⟩
      rcases List.mem_append.mp member with old | new
      · exact clean account old
      · rw [List.mem_singleton.mp new]
        exact cleanNew
  obtain ⟨w2, restart, reloaded⟩ := synced_restarts sgx doc ⟨held1, list.2⟩
  have registered : Registered w.accounts w2.accounts name password := reloaded ▸ list.1
  exact ⟨result, w1, w2, step, restart, registered, registered_total registered⟩

/-- A reachable list with one more registration survives a restart exactly when no
separator is among its names and passwords. -/
theorem keeps_accounts_iff (doc : sgx.Documented) (reliable : sgx.Reliable) {answer : Returned}
    (empty : before.accountFile = some [])
    (opening : EcallStep sgx before (.initManager, answer) start)
    (run : EcallRun sgx start history w) (fits : ∀ move ∈ history, StoresWithin sgx 65535 move)
    (name password : CString) (small : SmallEnough sgx w name password) :
    KeepsAccounts sgx w name password ↔ NoSeparator w name password := by
  have held := held_run sgx doc reliable (synced_opening sgx empty opening).1.1 fits run
  constructor
  · exact noSeparator_of_keeps sgx doc reliable held small
  · exact keeps_of_noSeparator sgx doc reliable held small

/-- A single name that reads back as two accounts, the first of them rich. -/
def forgingName : CString := ⟨ascii "a,b,XXXXXXXX\nc", by decide⟩

def forgingPassword : CString := ⟨ascii "d", by decide⟩

/-- Two owners with money, and a third one who registers. -/
theorem keeps_plain_name : ∃ history w, EcallRun clearSealing emptyBank history w ∧
    w.accounts = [Account.new (ascii "a") (ascii "p") 5, Account.new (ascii "b") (ascii "q") 7] ∧
      KeepsAccounts clearSealing w ⟨ascii "c", by decide⟩ ⟨ascii "r", by decide⟩ := by
  have evaluated : (ecallTrace clearSealing
      [.newAccount ⟨ascii "a", by decide⟩ ⟨ascii "p", by decide⟩, .myDeposit 5,
        .newAccount ⟨ascii "b", by decide⟩ ⟨ascii "q", by decide⟩, .myDeposit 7] emptyBank).map
      (fun traced => (traced.2.accounts,
        decide (∀ move ∈ traced.1, LimitSilent clearSealing move ∧ StoredUncut move))) =
      .ok ([Account.new (ascii "a") (ascii "p") 5, Account.new (ascii "b") (ascii "q") 7],
        true) := by
    decide +kernel
  obtain ⟨⟨history, w⟩, traced, facts⟩ := map_ok evaluated
  obtain ⟨accounts, conditions⟩ : w.accounts = _ ∧ _ := Prod.mk.inj facts
  obtain ⟨run, _⟩ := ecallTrace_run clearSealing traced
  have fits : ∀ move ∈ history, StoresWithin clearSealing 65535 move := by
    intro move member
    obtain ⟨silent, uncut⟩ := of_decide_eq_true conditions move member
    exact limitSilent_within clearSealing clearSealing_documented silent uncut
  have small : SmallEnough clearSealing w ⟨ascii "c", by decide⟩ ⟨ascii "r", by decide⟩ := by
    intro _
    rw [accounts]
    decide +kernel
  have separated : NoSeparator w ⟨ascii "c", by decide⟩ ⟨ascii "r", by decide⟩ := by
    refine ⟨?_, .inr ⟨by decide, by decide⟩⟩
    rw [accounts]
    decide
  exact ⟨history, w, run, accounts, (keeps_accounts_iff clearSealing clearSealing_documented
    clearSealing_reliable rfl (emptyBank_opening clearSealing) run fits _ _ small).mpr separated⟩

/-- Registered on an empty bank, that name comes back as two accounts with a total of
more than 6 * 10^18, where the list before had none. -/
theorem forged_accounts : ∃ history w, EcallRun clearSealing emptyBank history w ∧
    history.map (·.label.1) = [.newAccount forgingName forgingPassword, .initManager] ∧
      w.accounts = [Account.new (ascii "a") (ascii "b") 6365935209750747224,
        Account.new (ascii "c") (ascii "d") 0] ∧
        ¬ KeepsAccounts clearSealing emptyBank forgingName forgingPassword := by
  have reloaded : (ecallTrace clearSealing [.newAccount forgingName forgingPassword, .initManager]
      emptyBank).map (fun traced => traced.2.accounts) =
        .ok [Account.new (ascii "a") (ascii "b") 6365935209750747224,
          Account.new (ascii "c") (ascii "d") 0] := by
    decide +kernel
  obtain ⟨⟨history, w⟩, traced, accounts⟩ := map_ok reloaded
  obtain ⟨run, made⟩ := ecallTrace_run clearSealing traced
  refine ⟨history, w, run, made, accounts, ?_⟩
  intro keeps
  have small : SmallEnough clearSealing emptyBank forgingName forgingPassword := by
    intro _
    decide +kernel
  have held := (synced_opening clearSealing rfl (emptyBank_opening clearSealing)).1.1
  obtain ⟨_, listed | ⟨nameClean, _⟩⟩ := noSeparator_of_keeps clearSealing clearSealing_documented
    clearSealing_reliable held small keeps
  · obtain ⟨account, member, _⟩ := listed
    cases member
  · exact nameClean (by decide)

end SeccapBank
