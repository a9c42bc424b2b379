import SeccapBank.Sealing

set_option autoImplicit false

/- The class DealManager, on the one object that DEAL_MANAGER points to. -/
namespace SeccapBank

open CStrings Buffers Fallible

variable (sgx : Sgx)

def accountLogin : Bank Bool := do
  return (← theManager).currentAccount.isSome

def setCurrentAccount (account : AccountPtr) : Bank ProcessResult := do
  let manager ← theManager
  setManager { manager with currentAccount := some account }
  return .processSuccess

/-- `current_account->`, a fault while the pointer is NULL. -/
def theCurrentAccount : Bank AccountPtr := do
  match (← theManager).currentAccount with
  | some account => return account
  | none => throw .nullPointer

def pushBack (account : AccountPtr) : Bank Unit := do
  let manager ← theManager
  setManager { manager with accountList := manager.accountList ++ [account] }

/-- Both deals forward to the current account and drop the result they get. -/
def dealMy (deal : Account → UInt64 → ProcessResult × Account) (amount : UInt64) : Bank Unit := do
  let ptr ← theCurrentAccount
  let account ← deref ptr
  assign ptr (deal account amount).2

def dealMyDeposit (amount : UInt64) : Bank Unit := dealMy Account.deposit amount

def dealMyWithdraw (amount : UInt64) : Bank Unit := dealMy Account.withdraw amount

/-- The first half of AccountListStoreStorage: the buffer to store and its size.
The size of the plain text is narrowed to 16 bits at the call of `sealing`. -/
def sealAccountList : Bank (Bytes × Nat) := do
  let manager ← theManager
  let accountList ← derefAll manager.accountList
  let accountListData ← StateT.lift (marshallAccountList accountList)
  let (sealingData, sealingDataSize) ← sealing sgx manager.sealingUnsealing accountListData
    (UInt16.ofNat (allAccountDataSize accountList)) 10000
  return (sealingData, sealingDataSize.toNat)

def accountListStoreStorage : Bank ProcessResult := do
  let (sealingData, sealingDataSize) ← sealAccountList sgx
  ocallAccountListStore sealingData sealingDataSize
  return .processSuccess

/-- The source declares a result and runs off its end without one, which C++ leaves undefined
at every call. The model assumes a build in which the function returns; the result itself is
read by no caller. -/
def accountListSetting : Bank Unit := do
  let sealedAccountListSize ← ocallGetSealedAccountListSize
  if sealedAccountListSize > 0 then
    let sealedAccountListData ← ocallGetSealedAccountList (calloc sealedAccountListSize)
    let manager ← theManager
    let (accountListData, accountListSize) ←
      unsealing sgx manager.sealingUnsealing sealedAccountListData
    let accountList ← StateT.lift (loadAccountList accountListData accountListSize.toNat)
    let ptrs ← allocAll accountList
    setManager { manager with accountList := manager.accountList ++ ptrs }

/-- The buffer that a store of these accounts hands to the untrusted side. -/
def handedBuffer (s : SealingUnsealing) (call : Nat) (accountList : List Account) : Bytes :=
  sealedBuffer sgx s call (marshalled accountList)
    (UInt16.ofNat (marshalled accountList).length)

/-- The size that is handed over with it. -/
def handedSize (s : SealingUnsealing) (accountList : List Account) : UInt16 :=
  (sealedDataSize sgx s (UInt16.ofNat (marshalled accountList).length).toUInt32).toUInt16

theorem handedBuffer_eq (s : SealingUnsealing) (call : Nat) (accountList : List Account) :
    handedBuffer sgx s call accountList =
      match sgx.sealData call (cstr s.addMacTxt) ((marshalled accountList).take
          (UInt16.ofNat (marshalled accountList).length).toNat)
          (handedSize sgx s accountList).toUInt32 with
      | some blob => blob
      | none => calloc (handedSize sgx s accountList).toNat := rfl

theorem theCurrentAccount_run {w : World} {manager : DealManager} {ptr : AccountPtr}
    (present : w.dealManager = some manager) (current : manager.currentAccount = some ptr) :
    theCurrentAccount.run w = .ok (ptr, w) := by
  rw [theCurrentAccount, run_bind_of_ok (theManager_run present), current]
  rfl

theorem theCurrentAccount_run_null {w : World} {manager : DealManager}
    (present : w.dealManager = some manager) (nobody : manager.currentAccount = none) :
    theCurrentAccount.run w = .error .nullPointer := by
  rw [theCurrentAccount, run_bind_of_ok (theManager_run present), nobody]
  rfl

theorem setCurrentAccount_run {w : World} {manager : DealManager}
    (present : w.dealManager = some manager) (ptr : AccountPtr) :
    (setCurrentAccount ptr).run w = .ok (.processSuccess,
      { w with dealManager := some { manager with currentAccount := some ptr } }) := by
  rw [setCurrentAccount, run_bind_of_ok (theManager_run present)]
  rfl

theorem pushBack_run {w : World} {manager : DealManager}
    (present : w.dealManager = some manager) (ptr : AccountPtr) :
    (pushBack ptr).run w = .ok ((),
      { w with
        dealManager := some { manager with accountList := manager.accountList ++ [ptr] } }) := by
  rw [pushBack, run_bind_of_ok (theManager_run present)]
  rfl

theorem accountLogin_run {w : World} {manager : DealManager}
    (present : w.dealManager = some manager) :
    accountLogin.run w = .ok (manager.currentAccount.isSome, w) := by
  rw [accountLogin, run_bind_of_ok (theManager_run present)]
  rfl

theorem dealMy_run {w : World} {manager : DealManager} {ptr : AccountPtr} {account : Account}
    (present : w.dealManager = some manager) (current : manager.currentAccount = some ptr)
    (known : w.heap[ptr]? = some account)
    (deal : Account → UInt64 → ProcessResult × Account) (amount : UInt64) :
    (dealMy deal amount).run w =
      .ok ((), { w with heap := w.heap.set ptr (deal account amount).2 }) := by
  rw [dealMy, run_bind_of_ok (theCurrentAccount_run present current),
    run_bind_of_ok (deref_run known), assign_run]

theorem sealAccountList_run {w : World} {manager : DealManager}
    (present : w.dealManager = some manager) (valid : w.Valid manager.accountList) :
    ∃ lines, (sealAccountList sgx).run w =
      .ok ((handedBuffer sgx manager.sealingUnsealing w.sealCalls (w.listed manager.accountList),
          (handedSize sgx manager.sealingUnsealing (w.listed manager.accountList)).toNat),
        ({ w with sealCalls := w.sealCalls + 1 }).print lines) := by
  obtain ⟨lines, sealed⟩ := sealing_run sgx manager.sealingUnsealing
    (marshalled (w.listed manager.accountList))
    (UInt16.ofNat (allAccountDataSize (w.listed manager.accountList))) 10000 w
  refine ⟨lines, ?_⟩
  rw [sealAccountList, run_bind_of_ok (theManager_run present), run_bind_of_ok (derefAll_run valid),
    run_bind_of_ok (run_lift_ok.mpr ⟨marshallAccountList_eq _, rfl⟩), run_bind_of_ok sealed,
    allAccountDataSize_eq]
  rfl

/-- The state after a store over this old content of the file. -/
def World.store (w : World) (manager : DealManager) (old : Bytes) : World :=
  let accountList := w.listed manager.accountList
  let data := handedBuffer sgx manager.sealingUnsealing w.sealCalls accountList
  let size := handedSize sgx manager.sealingUnsealing accountList
  { w with sealCalls := w.sealCalls + 1, accountFile := some (blit old (data.take size.toNat)) }

theorem store_accountFile (w : World) (manager : DealManager) (old : Bytes) :
    (w.store sgx manager old).accountFile =
      some (blit old ((handedBuffer sgx manager.sealingUnsealing w.sealCalls
        (w.listed manager.accountList)).take
          (handedSize sgx manager.sealingUnsealing (w.listed manager.accountList)).toNat)) := rfl

/-- A store always reports success and writes whatever buffer sealing left. -/
theorem accountListStoreStorage_run {w : World} {manager : DealManager} {old : Bytes}
    (present : w.dealManager = some manager) (valid : w.Valid manager.accountList)
    (file : w.accountFile = some old) :
    ∃ lines, (accountListStoreStorage sgx).run w =
      .ok (.processSuccess, (w.store sgx manager old).print lines) := by
  obtain ⟨lines, sealed⟩ := sealAccountList_run sgx present valid
  refine ⟨lines, ?_⟩
  rw [accountListStoreStorage, run_bind_of_ok sealed]
  have stored := ocallAccountListStore_run
    (w := ({ w with sealCalls := w.sealCalls + 1 }).print lines) file
    (handedBuffer sgx manager.sealingUnsealing w.sealCalls (w.listed manager.accountList))
    (handedSize sgx manager.sealingUnsealing (w.listed manager.accountList)).toNat
  rw [run_bind_of_ok stored]
  rfl

/-- A store that returned had a file to write to, and did nothing else. -/
theorem accountListStoreStorage_cases {w w' : World} {result : ProcessResult}
    {manager : DealManager}
    (present : w.dealManager = some manager) (valid : w.Valid manager.accountList)
    (returned : (accountListStoreStorage sgx).run w = .ok (result, w')) :
    result = .processSuccess ∧ ∃ old lines, w.accountFile = some old ∧
      w' = (w.store sgx manager old).print lines := by
  cases file : w.accountFile with
  | none =>
      obtain ⟨lines, sealed⟩ := sealAccountList_run sgx present valid
      rw [accountListStoreStorage, run_bind_of_ok sealed] at returned
      simp [ocallAccountListStore, file] at returned
  | some old =>
      obtain ⟨lines, stored⟩ := accountListStoreStorage_run sgx present valid file
      rw [stored] at returned
      cases returned
      exact ⟨rfl, old, lines, rfl, rfl⟩

/-- What any store that returns leaves alone. -/
theorem accountListStoreStorage_frame {w w' : World} {result : ProcessResult}
    {manager : DealManager}
    (present : w.dealManager = some manager) (valid : w.Valid manager.accountList)
    (returned : (accountListStoreStorage sgx).run w = .ok (result, w')) :
    w'.heap = w.heap ∧ w'.dealManager = w.dealManager := by
  obtain ⟨_, old, lines, _, rfl⟩ := accountListStoreStorage_cases sgx present valid returned
  exact ⟨rfl, rfl⟩

section Setting

variable {w : World} {manager : DealManager} {content : Bytes}

theorem accountListSetting_missing (absent : w.accountFile = none) :
    (accountListSetting sgx).run w = .error .exitFailure := by
  have size : ocallGetSealedAccountListSize.run w = .error .exitFailure := by
    simp [ocallGetSealedAccountListSize, absent]
  rw [accountListSetting, run_bind_of_error size]

theorem accountListSetting_empty (file : w.accountFile = some []) :
    (accountListSetting sgx).run w = .ok ((), w) := by
  rw [accountListSetting, run_bind_of_ok (ocallGetSealedAccountListSize_run file)]
  rfl

theorem accountListSetting_nonempty (present : w.dealManager = some manager)
    (file : w.accountFile = some content) (nonempty : content ≠ []) :
    (accountListSetting sgx).run w =
      (do let opened ← unsealing sgx manager.sealingUnsealing content
          let accountList ← StateT.lift (loadAccountList opened.1 opened.2.toNat)
          let ptrs ← allocAll accountList
          setManager { manager with accountList := manager.accountList ++ ptrs } : Bank Unit).run
        w := by
  rw [accountListSetting, run_bind_of_ok (ocallGetSealedAccountListSize_run file),
    if_pos (List.length_pos_iff.mpr nonempty), run_bind_of_ok (ocallGetSealedAccountList_run file),
    run_bind_of_ok (theManager_run present)]

theorem accountListSetting_fault (present : w.dealManager = some manager) {fault : Fault}
    (failed : (accountListSetting sgx).run w = .error fault) : fault ≠ .nullPointer := by
  rintro rfl
  cases file : w.accountFile with
  | none =>
      rw [accountListSetting_missing sgx file] at failed
      cases failed
  | some content =>
      by_cases empty : content = []
      · rw [accountListSetting_empty sgx (file.trans (congrArg some empty))] at failed
        cases failed
      · rw [accountListSetting_nonempty sgx present file empty] at failed
        rcases run_bind_error.mp failed with unsealed | ⟨opened, w1, _, loading⟩
        · rcases unsealing_fault sgx unsealed with same | same
          · cases same
          · cases same
        · rcases run_bind_error.mp loading with loaded | ⟨accountList, w2, _, installing⟩
          · rcases loadAccountList_fault (run_lift_error.mp loaded) with same | same
            · cases same
            · cases same
          · rw [run_bind_of_ok (allocAll_run accountList w2)] at installing
            cases installing

end Setting

end SeccapBank
