import SeccapBank.EnclaveSteps
import SeccapBank.General.Ledger

set_option autoImplicit false

/- The enclave as a ledger: every ecall but the initialisation is one step of the
abstract ledger over names and passwords. -/
namespace SeccapBank

open CStrings Buffers Fallible Runs Ledgers

variable (sgx : Sgx) {w w' : World} {manager : DealManager}

def Account.entry (account : Account) : Entry Bytes Bytes :=
  ⟨account.name, account.password, account.deposits.toNat⟩

/-- The abstract content of the enclave. -/
def World.ledger (w : World) : Ledger Bytes Bytes := ⟨w.accounts.map Account.entry, w.currentIndex⟩

/-- The comparison of passwords, up to the first NUL of either. -/
def passwordAccepts (stored given : Bytes) : Prop := cstr given = cstr stored

/-- The largest balance, `UINT64_MAX`. -/
def maxDeposits : Nat := 2 ^ 64 - 1

abbrev LedgerStep : Ledger Bytes Bytes → Op Bytes Bytes × Answer → Ledger Bytes Bytes → Prop :=
  Step passwordAccepts maxDeposits

def Ecall.op : Ecall → Op Bytes Bytes
  | .initManager => .reopen
  | .newAccount name password => .enter name.bytes password.bytes
  | .myDeposit amount => .deposit amount.toNat
  | .myWithdraw amount => .withdraw amount.toNat
  | .myInquiry => .inquire

/-- How the ecalls encode an answer. A balance and NEED_LOGOUT share one type. -/
def answerReturned : Answer → Returned
  | .granted => .result .processSuccess
  | .refused => .result .accountSetFail
  | .balance amount => .value (UInt64.ofNat amount)
  | .nobody => .value ProcessResult.needLogout.toUInt64

theorem WellFormed.of_frame (wf : WellFormed w manager) (heap : w'.heap = w.heap)
    (same : w'.dealManager = w.dealManager) : WellFormed w' manager where
  present := same.trans wf.present
  sealing := wf.sealing
  valid := by
    intro ptr member
    rw [heap]
    exact wf.valid ptr member
  distinct := wf.distinct
  current := wf.current

theorem accounts_of_frame (heap : w'.heap = w.heap) (same : w'.dealManager = w.dealManager) :
    w'.accounts = w.accounts := by
  simp [World.accounts, World.listed, heap, same]

theorem ledger_of_frame (heap : w'.heap = w.heap) (same : w'.dealManager = w.dealManager) :
    w'.ledger = w.ledger := by
  simp [World.ledger, World.currentIndex, accounts_of_frame heap same, same]

section Select

theorem select_wellFormed (wf : WellFormed w manager) {ptr : AccountPtr}
    (member : ptr ∈ manager.accountList) :
    WellFormed (w.select manager ptr) { manager with currentAccount := some ptr } where
  present := rfl
  sealing := wf.sealing
  valid := wf.valid
  distinct := wf.distinct
  current := by
    intro other current
    cases current
    exact member

theorem select_accounts (present : w.dealManager = some manager) (ptr : AccountPtr) :
    (w.select manager ptr).accounts = w.accounts := by
  rw [accounts_eq present]
  rfl

theorem select_ledger (present : w.dealManager = some manager) (ptr : AccountPtr) :
    (w.select manager ptr).ledger =
      ⟨w.ledger.entries, some (manager.accountList.idxOf ptr)⟩ := by
  rw [World.ledger, select_accounts present]
  rfl

end Select

section Enroll

variable (account : Account)

theorem enroll_fresh (wf : WellFormed w manager) : w.heap.length ∉ manager.accountList :=
  fun member => Nat.lt_irrefl _ (wf.valid _ member)

theorem enroll_wellFormed (wf : WellFormed w manager) :
    WellFormed (w.enroll manager account) (w.enrolled manager) where
  present := rfl
  sealing := wf.sealing
  valid := wf.enroll_valid account
  distinct := by
    refine List.nodup_append.mpr ⟨wf.distinct, List.nodup_singleton _, ?_⟩
    intro ptr old other new same
    rw [same, List.mem_singleton.mp new] at old
    exact enroll_fresh wf old
  current := by
    intro ptr current
    cases current
    exact List.mem_append_right _ (List.mem_singleton_self _)

theorem enroll_accounts (wf : WellFormed w manager) :
    (w.enroll manager account).accounts = w.accounts ++ [account] := by
  have old : (w.enroll manager account).listed manager.accountList =
      w.listed manager.accountList := by
    apply List.filterMap_congr
    intro ptr member
    exact List.getElem?_append_left (wf.valid ptr member)
  rw [accounts_eq wf.present, accounts_eq (enroll_wellFormed account wf).present]
  change List.filterMap _ (manager.accountList ++ [w.heap.length]) = _
  rw [List.filterMap_append]
  congr 1
  simp [World.enroll]

theorem enroll_ledger (wf : WellFormed w manager) :
    (w.enroll manager account).ledger =
      ⟨w.ledger.entries ++ [account.entry], some w.ledger.entries.length⟩ := by
  have place : (w.enrolled manager).accountList.idxOf w.heap.length = w.ledger.entries.length := by
    rw [World.enrolled, List.idxOf_append_of_notMem (enroll_fresh wf), World.ledger,
      List.length_map, accounts_eq wf.present, listed_length wf.valid]
    simp
  rw [World.ledger, enroll_accounts account wf,
    currentIndex_eq (enroll_wellFormed account wf).present rfl, place, List.map_append]
  rfl

end Enroll

section Rewrite

variable {ptr : AccountPtr} (account : Account)

theorem rewrite_wellFormed (wf : WellFormed w manager) (ptr : AccountPtr) (account : Account) :
    WellFormed (w.rewrite ptr account) manager where
  present := wf.present
  sealing := wf.sealing
  valid := wf.rewrite_valid ptr account
  distinct := wf.distinct
  current := wf.current

/-- Writing through the current pointer changes exactly one element of the list. -/
theorem rewrite_accounts (wf : WellFormed w manager) (member : ptr ∈ manager.accountList) :
    (w.rewrite ptr account).accounts =
      w.accounts.set (manager.accountList.idxOf ptr) account := by
  have inside : manager.accountList.idxOf ptr < manager.accountList.length :=
    List.idxOf_lt_length_iff.mpr member
  rw [accounts_eq wf.present, accounts_eq (rewrite_wellFormed wf ptr account).present]
  apply List.ext_getElem?
  intro i
  rw [listed_getElem? (wf.rewrite_valid ptr account)]
  by_cases here : manager.accountList.idxOf ptr = i
  · subst here
    rw [List.getElem?_set_self (by rwa [listed_length wf.valid]), List.getElem?_idxOf member]
    exact List.getElem?_set_self (wf.valid ptr member)
  · rw [List.getElem?_set_ne here, listed_getElem? wf.valid]
    cases other : manager.accountList[i]? with
    | none => rfl
    | some p =>
        have differ : ptr ≠ p := by
          intro same
          obtain ⟨bound, found⟩ := List.getElem?_eq_some_iff.mp other
          apply here
          rw [same, ← found]
          exact wf.distinct.idxOf_getElem i bound
        exact List.getElem?_set_ne differ

theorem rewrite_ledger (wf : WellFormed w manager) (member : ptr ∈ manager.accountList)
    {old : Account} (name : account.name = old.name) (password : account.password = old.password) :
    (w.rewrite ptr account).ledger =
      w.ledger.write (manager.accountList.idxOf ptr) old.entry account.deposits.toNat := by
  have entry : account.entry = { old.entry with balance := account.deposits.toNat } := by
    simp [Account.entry, name, password]
  rw [World.ledger, rewrite_accounts account wf member, List.map_set, entry]
  rfl

end Rewrite

theorem ledger_known (wf : WellFormed w manager) {ptr : AccountPtr} {account : Account}
    (member : ptr ∈ manager.accountList) (known : w.heap[ptr]? = some account) :
    w.ledger.entries[manager.accountList.idxOf ptr]? = some account.entry := by
  rw [World.ledger, List.getElem?_map, wf.getElem? member known]
  rfl

/-- Login and registration refine entering the ledger. -/
theorem newAccount_refines (wf : WellFormed w manager) {name password : CString}
    {result : ProcessResult}
    (returned : (ecallNewAccount sgx name password).run w = .ok (result, w')) :
    ∃ manager' answer, WellFormed w' manager' ∧ .result result = answerReturned answer ∧
      LedgerStep w.ledger (.enter name.bytes password.bytes, answer) w'.ledger := by
  rcases newAccount_cases sgx wf returned with
    ⟨ptr, account, member, known, named, rfl, rfl⟩ | ⟨fresh, rfl, store⟩
  · have step := ledger_known wf member known
    rw [select_ledger wf.present, ← named]
    by_cases accepted : password.bytes = cstr account.password
    · refine ⟨_, .granted, select_wellFormed wf member, by rw [if_pos accepted]; rfl, ?_⟩
      refine .admitted step ?_
      rw [passwordAccepts, CString.cstr_bytes]
      exact accepted
    · refine ⟨_, .refused, select_wellFormed wf member, by rw [if_neg accepted]; rfl, ?_⟩
      refine .refused step ?_
      rw [passwordAccepts, CString.cstr_bytes]
      exact accepted
  · have enrolled := enroll_wellFormed (Account.newAccount name.bytes password.bytes) wf
    obtain ⟨heap, same⟩ := accountListStoreStorage_frame sgx enrolled.present enrolled.valid store
    refine ⟨_, .granted, enrolled.of_frame heap same, rfl, ?_⟩
    rw [ledger_of_frame heap same, enroll_ledger _ wf]
    refine .opened fun e known => ?_
    obtain ⟨account, member, rfl⟩ := List.mem_map.mp known
    exact fresh account member

/-- Both money ecalls refine the money operation that their deal refines. -/
theorem ecallMy_refines (wf : WellFormed w manager)
    {deal : Account → UInt64 → ProcessResult × Account} {op : Op Bytes Bytes}
    {amount value : UInt64}
    (name : ∀ account, (deal account amount).2.name = account.name)
    (password : ∀ account, (deal account amount).2.password = account.password)
    (nobody : w.ledger.selected = none → LedgerStep w.ledger (op, .nobody) w.ledger)
    (dealt : ∀ i account, w.ledger.selected = some i → w.ledger.entries[i]? = some account.entry →
      LedgerStep w.ledger (op, .balance (deal account amount).2.deposits.toNat)
        (w.ledger.write i account.entry (deal account amount).2.deposits.toNat))
    (returned : (ecallMy sgx (dealMy deal) amount).run w = .ok (value, w')) :
    ∃ manager' answer, WellFormed w' manager' ∧ .value value = answerReturned answer ∧
      LedgerStep w.ledger (op, answer) w'.ledger := by
  rcases ecallMy_cases sgx wf returned with ⟨current, rfl, rfl⟩ |
    ⟨ptr, account, current, known, rfl, store⟩
  · exact ⟨manager, .nobody, wf, rfl, nobody (currentIndex_none wf.present current)⟩
  · have member := wf.current ptr current
    have rewritten := rewrite_wellFormed wf ptr (deal account amount).2
    obtain ⟨heap, same⟩ := accountListStoreStorage_frame sgx rewritten.present rewritten.valid store
    refine ⟨manager, .balance (deal account amount).2.deposits.toNat,
      rewritten.of_frame heap same, by rw [answerReturned, UInt64.ofNat_toNat], ?_⟩
    rw [ledger_of_frame heap same,
      rewrite_ledger _ wf member (name account) (password account)]
    exact dealt _ account (currentIndex_eq wf.present current) (ledger_known wf member known)

theorem write_unchanged {l : Ledger Bytes Bytes} {i : Nat} {e : Entry Bytes Bytes}
    (known : l.entries[i]? = some e) : l.write i e e.balance = l := by
  obtain ⟨inside, found⟩ := List.getElem?_eq_some_iff.mp known
  have same : l.entries.set i e = l.entries := by rw [← found, List.set_getElem_self]
  simp only [Ledger.write, same]

theorem myDeposit_refines (wf : WellFormed w manager) {amount value : UInt64}
    (returned : (ecallMyDeposit sgx amount).run w = .ok (value, w')) :
    ∃ manager' answer, WellFormed w' manager' ∧ .value value = answerReturned answer ∧
      LedgerStep w.ledger (.deposit amount.toNat, answer) w'.ledger := by
  refine ecallMy_refines sgx wf (fun account => account.deposit_name amount)
    (fun account => account.deposit_password amount) .undeposited ?_ returned
  intro i account selected known
  rw [Account.deposit_deposits]
  split
  · rename_i fits
    exact .deposited selected known fits
  · rename_i full
    change LedgerStep _ _ (w.ledger.write i account.entry account.entry.balance)
    rw [write_unchanged known]
    exact .overflowing selected known (Nat.lt_of_not_le full)

theorem myWithdraw_refines (wf : WellFormed w manager) {amount value : UInt64}
    (returned : (ecallMyWithdraw sgx amount).run w = .ok (value, w')) :
    ∃ manager' answer, WellFormed w' manager' ∧ .value value = answerReturned answer ∧
      LedgerStep w.ledger (.withdraw amount.toNat, answer) w'.ledger := by
  refine ecallMy_refines sgx wf (fun account => account.withdraw_name amount)
    (fun account => account.withdraw_password amount) .unwithdrawn ?_ returned
  intro i account selected known
  rw [Account.withdraw_deposits]
  split
  · rename_i covered
    exact .withdrawn selected known covered
  · rename_i short
    change LedgerStep _ _ (w.ledger.write i account.entry account.entry.balance)
    rw [write_unchanged known]
    exact .overdrawn selected known (Nat.lt_of_not_le short)

/-- Every ecall but the initialisation is one step of the ledger. -/
theorem ecall_refines (wf : WellFormed w manager) {call : Ecall} {returned : Returned}
    (running : call ≠ .initManager) (step : EcallStep sgx w (call, returned) w') :
    ∃ manager' answer, WellFormed w' manager' ∧ returned = answerReturned answer ∧
      LedgerStep w.ledger (call.op, answer) w'.ledger := by
  cases call with
  | initManager => exact absurd rfl running
  | newAccount name password =>
      obtain ⟨result, inner, rfl⟩ := run_map_ok.mp step
      exact newAccount_refines sgx wf inner
  | myDeposit amount =>
      obtain ⟨value, inner, rfl⟩ := run_map_ok.mp step
      exact myDeposit_refines sgx wf inner
  | myWithdraw amount =>
      obtain ⟨value, inner, rfl⟩ := run_map_ok.mp step
      exact myWithdraw_refines sgx wf inner
  | myInquiry =>
      obtain ⟨value, inner, rfl⟩ := run_map_ok.mp step
      obtain ⟨ptr, account, current, known, rfl, rfl⟩ := myInquiry_cases wf inner
      refine ⟨manager, .balance account.deposits.toNat, wf,
        by rw [answerReturned, UInt64.ofNat_toNat], ?_⟩
      exact .inquired (currentIndex_eq wf.present current)
        (ledger_known wf (wf.current ptr current) known)

end SeccapBank
