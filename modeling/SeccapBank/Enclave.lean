import SeccapBank.DealManager
import SeccapBank.General.Run

set_option autoImplicit false

/- The five public ecalls, and runs of them in any order. -/
namespace SeccapBank

open CStrings Buffers Fallible Runs

variable (sgx : Sgx)

def ecallInitManager : Bank ProcessResult := do
  setManager .new
  accountListSetting sgx
  printf "[Server]: サーバー初期設定完了\n"
  return .processSuccess

/-- The lookup loop: the first account of that name. -/
def findAccount (name : Bytes) : List AccountPtr → Bank (Option AccountPtr)
  | [] => return none
  | ptr :: rest => do
      let account ← deref ptr
      if name = account.name then return some ptr else findAccount name rest

/-- The check of `result` behind both branches. -/
def loginResult (result : ProcessResult) : ProcessResult :=
  if result ≠ .processSuccess then .accountSetFail else .processSuccess

def ecallNewAccount (name password : CString) : Bank ProcessResult := do
  match ← findAccount name.bytes (← theManager).accountList with
  | some ptr =>
      -- the account becomes the current one before its password is compared
      let result ← setCurrentAccount ptr
      let account ← deref ptr
      if strcmp password.bytes account.password ≠ 0 then
        return .accountSetFail
      else
        return loginResult result
  | none =>
      let ptr ← alloc (Account.newAccount name.bytes password.bytes)
      let result ← setCurrentAccount ptr
      pushBack (← theCurrentAccount)
      let _ ← accountListStoreStorage sgx
      return loginResult result

/-- The body that both money ecalls share. -/
def ecallMy (deal : UInt64 → Bank Unit) (amount : UInt64) : Bank UInt64 := do
  if ← accountLogin then
    deal amount
    let _ ← accountListStoreStorage sgx
    return (← deref (← theCurrentAccount)).deposits
  else
    return ProcessResult.needLogout.toUInt64

def ecallMyDeposit (amount : UInt64) : Bank UInt64 := ecallMy sgx dealMyDeposit amount

def ecallMyWithdraw (amount : UInt64) : Bank UInt64 := ecallMy sgx dealMyWithdraw amount

def ecallMyInquiry : Bank UInt64 := do
  return (← deref (← theCurrentAccount)).deposits

/-- The calls that the untrusted side can make. -/
inductive Ecall where
  | initManager
  | newAccount (name password : CString)
  | myDeposit (amount : UInt64)
  | myWithdraw (amount : UInt64)
  | myInquiry
  deriving DecidableEq

inductive Returned where
  | result (result : ProcessResult)
  | value (value : UInt64)
  deriving DecidableEq

/-- One call with what it returns. -/
def Ecall.exec : Ecall → Bank Returned
  | .initManager => .result <$> ecallInitManager sgx
  | .newAccount name password => .result <$> ecallNewAccount sgx name password
  | .myDeposit amount => .value <$> ecallMyDeposit sgx amount
  | .myWithdraw amount => .value <$> ecallMyWithdraw sgx amount
  | .myInquiry => .value <$> ecallMyInquiry

/-- A call that returned, between the states before and after it. -/
abbrev Move := Transition World (Ecall × Returned)

def EcallStep (w : World) (label : Ecall × Returned) (w' : World) : Prop :=
  (label.1.exec sgx).run w = .ok (label.2, w')

instance (w : World) (label : Ecall × Returned) (w' : World) :
    Decidable (EcallStep sgx w label w') :=
  inferInstanceAs (Decidable (_ = _))

/-- Runs in which every call returned. -/
abbrev EcallRun := Run (EcallStep sgx)

/-- The history of a list of calls, as long as each of them returns. -/
def ecallTrace : List Ecall → World → Except Fault (List Move × World)
  | [], w => .ok ([], w)
  | call :: calls, w => do
      let (returned, w1) ← (call.exec sgx).run w
      let (history, w2) ← ecallTrace calls w1
      return (⟨w, (call, returned), w1⟩ :: history, w2)

theorem ecallTrace_error {call : Ecall} {w : World} {fault : Fault}
    (first : (call.exec sgx).run w = .error fault) (calls : List Ecall) :
    ecallTrace sgx (call :: calls) w = .error fault := by
  rw [ecallTrace, first, error_bind]

theorem ecallTrace_step {call : Ecall} {returned : Returned} {w w1 : World}
    (first : EcallStep sgx w (call, returned) w1) (calls : List Ecall) :
    ecallTrace sgx (call :: calls) w =
      (ecallTrace sgx calls w1).map fun rest => (⟨w, (call, returned), w1⟩ :: rest.1, rest.2) := by
  have here : (call.exec sgx).run w = .ok (returned, w1) := first
  rw [ecallTrace, here, ok_bind]
  cases rest : ecallTrace sgx calls w1 with
  | error e =>
      simp only [rest]
      rfl
  | ok traced =>
      simp only [rest]
      rfl

/-- The calls of a trace are made in order, and form a run. -/
theorem ecallTrace_run {calls : List Ecall} {w w' : World} {history : List Move}
    (traced : ecallTrace sgx calls w = .ok (history, w')) :
    EcallRun sgx w history w' ∧ history.map (·.label.1) = calls := by
  induction calls generalizing w history with
  | nil =>
      cases traced
      exact ⟨.nil, rfl⟩
  | cons call calls ih =>
      cases first : (call.exec sgx).run w with
      | error e =>
          rw [ecallTrace_error sgx first] at traced
          cases traced
      | ok p =>
          rw [ecallTrace_step sgx first] at traced
          obtain ⟨q, rest, same⟩ := map_ok traced
          cases same
          obtain ⟨run, made⟩ := ih rest
          have start : EcallRun sgx w [⟨w, (call, p.1), p.2⟩] p.2 := Run.nil.snoc first
          exact ⟨start.append run, congrArg (call :: ·) made⟩

theorem made_all {calls : List Ecall} {history : List Move} (P : Ecall → Prop)
    (made : history.map (·.label.1) = calls) (all : ∀ call ∈ calls, P call) :
    ∀ move ∈ history, P move.label.1 := by
  intro move member
  apply all
  rw [← made]
  exact List.mem_map_of_mem (f := fun move : Move => move.label.1) member

/-- The state of a process that has just been started on a file. -/
def World.boot (content : Bytes) : World := ⟨[], none, some content, 0, []⟩

/-- The accounts of `DEAL_MANAGER->account_list`, in order. -/
def World.accounts (w : World) : List Account :=
  match w.dealManager with
  | some manager => w.listed manager.accountList
  | none => []

/-- The place of `current_account` in `account_list`. -/
def World.currentIndex (w : World) : Option Nat :=
  w.dealManager.bind fun manager =>
    manager.currentAccount.map fun ptr => manager.accountList.idxOf ptr

/-- The manager seals as its constructor set it up, its list holds different existing
objects, and `current_account` is NULL or one of them. -/
structure WellFormed (w : World) (manager : DealManager) : Prop where
  present : w.dealManager = some manager
  sealing : manager.sealingUnsealing = .new
  valid : w.Valid manager.accountList
  distinct : manager.accountList.Nodup
  current : ∀ ptr, manager.currentAccount = some ptr → ptr ∈ manager.accountList

section Accounts

variable {w : World} {manager : DealManager}

theorem accounts_eq (present : w.dealManager = some manager) :
    w.accounts = w.listed manager.accountList := by
  rw [World.accounts, present]

theorem listed_getElem? {ptrs : List AccountPtr} (valid : w.Valid ptrs) (i : Nat) :
    (w.listed ptrs)[i]? = ptrs[i]?.bind (w.heap[·]?) := by
  induction ptrs generalizing i with
  | nil => rfl
  | cons ptr rest ih =>
      have known := List.getElem?_eq_getElem (valid ptr (List.mem_cons_self ..))
      rw [World.listed_cons known]
      cases i with
      | zero => simp [known]
      | succ i => simpa using ih (fun p member => valid p (List.mem_cons_of_mem _ member)) i

theorem listed_length {ptrs : List AccountPtr} (valid : w.Valid ptrs) :
    (w.listed ptrs).length = ptrs.length := by
  induction ptrs with
  | nil => rfl
  | cons ptr rest ih =>
      have known := List.getElem?_eq_getElem (valid ptr (List.mem_cons_self ..))
      rw [World.listed_cons known, List.length_cons, List.length_cons,
        ih fun p member => valid p (List.mem_cons_of_mem _ member)]

theorem currentIndex_eq (present : w.dealManager = some manager) {ptr : AccountPtr}
    (current : manager.currentAccount = some ptr) :
    w.currentIndex = some (manager.accountList.idxOf ptr) := by
  simp [World.currentIndex, present, current]

theorem currentIndex_none (present : w.dealManager = some manager)
    (nobody : manager.currentAccount = none) : w.currentIndex = none := by
  simp [World.currentIndex, present, nobody]

theorem WellFormed.getElem? (wf : WellFormed w manager) {ptr : AccountPtr} {account : Account}
    (member : ptr ∈ manager.accountList) (known : w.heap[ptr]? = some account) :
    w.accounts[manager.accountList.idxOf ptr]? = some account := by
  rw [accounts_eq wf.present, listed_getElem? wf.valid, List.getElem?_idxOf member,
    Option.bind_some, known]

end Accounts

end SeccapBank
