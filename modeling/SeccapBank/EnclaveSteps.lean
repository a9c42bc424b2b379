import SeccapBank.Enclave

set_option autoImplicit false

/- What one ecall can do from a well-formed state, in full: every later fact about
runs is derived from these case lists. -/
namespace SeccapBank

open CStrings Buffers Fallible Runs

variable (sgx : Sgx) {w w' : World} {manager : DealManager}

/-- The state with another current account. -/
def World.select (w : World) (manager : DealManager) (ptr : AccountPtr) : World :=
  { w with dealManager := some { manager with currentAccount := some ptr } }

/-- The manager with the next object to be allocated at the end of its list, and current. -/
def World.enrolled (w : World) (manager : DealManager) : DealManager :=
  { manager with
    currentAccount := some w.heap.length
    accountList := manager.accountList ++ [w.heap.length] }

/-- The state with a new account at the end of the list, and current. -/
def World.enroll (w : World) (manager : DealManager) (account : Account) : World :=
  { w with
    heap := w.heap ++ [account]
    dealManager := some (w.enrolled manager) }

/-- The state with another content of one account. -/
def World.rewrite (w : World) (ptr : AccountPtr) (account : Account) : World :=
  { w with heap := w.heap.set ptr account }

theorem WellFormed.rewrite_valid (wf : WellFormed w manager) (ptr : AccountPtr)
    (account : Account) :
    (w.rewrite ptr account).Valid manager.accountList := by
  intro p member
  simpa [World.rewrite] using wf.valid p member

theorem WellFormed.enroll_valid (wf : WellFormed w manager) (account : Account) :
    (w.enroll manager account).Valid (w.enrolled manager).accountList := by
  intro ptr member
  simp only [World.enroll, List.length_append, List.length_singleton]
  rcases List.mem_append.mp member with old | new
  · exact Nat.lt_succ_of_lt (wf.valid ptr old)
  · rw [List.mem_singleton.mp new]
    exact Nat.lt_succ_self _

theorem findAccount_run {ptrs : List AccountPtr} (valid : w.Valid ptrs) (name : Bytes) :
    (∃ ptr account, ptr ∈ ptrs ∧ w.heap[ptr]? = some account ∧ account.name = name ∧
        (findAccount name ptrs).run w = .ok (some ptr, w)) ∨
      ((∀ account ∈ w.listed ptrs, account.name ≠ name) ∧
        (findAccount name ptrs).run w = .ok (none, w)) := by
  induction ptrs with
  | nil => exact .inr ⟨by simp [World.listed], rfl⟩
  | cons ptr rest ih =>
      obtain ⟨account, known⟩ : ∃ account, w.heap[ptr]? = some account :=
        ⟨_, List.getElem?_eq_getElem (valid ptr (List.mem_cons_self ..))⟩
      have here : (findAccount name (ptr :: rest)).run w =
          (if name = account.name then (pure (some ptr) : Bank _)
            else findAccount name rest).run w := by
        rw [findAccount, run_bind_of_ok (deref_run known)]
      by_cases same : name = account.name
      · refine .inl ⟨ptr, account, List.mem_cons_self .., known, same.symm, ?_⟩
        rw [here, if_pos same]
        rfl
      · rw [if_neg same] at here
        rcases ih fun p member => valid p (List.mem_cons_of_mem _ member) with
          ⟨p, other, member, found, named, run⟩ | ⟨fresh, run⟩
        · exact .inl ⟨p, other, List.mem_cons_of_mem _ member, found, named, here.trans run⟩
        · refine .inr ⟨?_, here.trans run⟩
          rw [World.listed_cons known]
          intro other member
          rcases List.mem_cons.mp member with rfl | member
          · exact Ne.symm same
          · exact fresh other member

/-- Login of an existing account: it becomes the current one whatever the password,
and the password only decides the answer. -/
theorem newAccount_known (present : w.dealManager = some manager) {ptr : AccountPtr}
    {account : Account} (known : w.heap[ptr]? = some account) {name : CString}
    (found : (findAccount name.bytes manager.accountList).run w = .ok (some ptr, w))
    (password : CString) :
    (ecallNewAccount sgx name password).run w = .ok
      (if password.bytes = cstr account.password then .processSuccess else .accountSetFail,
        w.select manager ptr) := by
  have compare := strcmp_eq_zero password.bytes account.password
  rw [CString.cstr_bytes] at compare
  have selected := setCurrentAccount_run present ptr
  have readBack : (deref ptr).run (w.select manager ptr) = .ok (account, w.select manager ptr) :=
    deref_run known
  rw [ecallNewAccount, run_bind_of_ok (theManager_run present), run_bind_of_ok found]
  dsimp only
  rw [run_bind_of_ok selected]
  change ((deref ptr >>= _) : Bank _).run (w.select manager ptr) = _
  rw [run_bind_of_ok readBack]
  by_cases accepted : password.bytes = cstr account.password
  · rw [if_neg (not_not.mpr (compare.mpr accepted)), if_pos accepted]
    rfl
  · rw [if_pos (fun zero => accepted (compare.mp zero)), if_neg accepted]
    rfl

/-- Registration of a new account: enroll it, then store the whole list. -/
theorem newAccount_fresh (present : w.dealManager = some manager) {name : CString}
    (absent : (findAccount name.bytes manager.accountList).run w = .ok (none, w))
    (password : CString) :
    (ecallNewAccount sgx name password).run w =
      (do let _ ← accountListStoreStorage sgx; return .processSuccess : Bank ProcessResult).run
        (w.enroll manager (Account.newAccount name.bytes password.bytes)) := by
  let account := Account.newAccount name.bytes password.bytes
  let allocated : World := { w with heap := w.heap ++ [account] }
  let current : DealManager := { manager with currentAccount := some w.heap.length }
  let selected : World := { allocated with dealManager := some current }
  have before : allocated.dealManager = some manager := present
  have after : selected.dealManager = some current := rfl
  have select : (setCurrentAccount w.heap.length).run allocated = .ok (.processSuccess, selected) :=
    setCurrentAccount_run before w.heap.length
  have readBack : theCurrentAccount.run selected = .ok (w.heap.length, selected) :=
    theCurrentAccount_run after rfl
  have push : (pushBack w.heap.length).run selected = .ok ((), w.enroll manager account) :=
    pushBack_run after w.heap.length
  rw [ecallNewAccount, run_bind_of_ok (theManager_run present), run_bind_of_ok absent]
  dsimp only
  rw [run_bind_of_ok (alloc_run account w), run_bind_of_ok select, run_bind_of_ok readBack,
    run_bind_of_ok push]
  rfl

theorem newAccount_cases (wf : WellFormed w manager) {name password : CString}
    {result : ProcessResult}
    (returned : (ecallNewAccount sgx name password).run w = .ok (result, w')) :
    (∃ ptr account, ptr ∈ manager.accountList ∧ w.heap[ptr]? = some account ∧
        account.name = name.bytes ∧ w' = w.select manager ptr ∧
        result = if password.bytes = cstr account.password then .processSuccess
          else .accountSetFail) ∨
      ((∀ account ∈ w.accounts, account.name ≠ name.bytes) ∧ result = .processSuccess ∧
        (accountListStoreStorage sgx).run
          (w.enroll manager (Account.newAccount name.bytes password.bytes)) =
            .ok (.processSuccess, w')) := by
  rcases findAccount_run wf.valid name.bytes with ⟨ptr, account, member, known, named, found⟩ |
    ⟨fresh, absent⟩
  · rw [newAccount_known sgx wf.present known found] at returned
    cases returned
    exact .inl ⟨ptr, account, member, known, named, rfl, rfl⟩
  · rw [newAccount_fresh sgx wf.present absent] at returned
    obtain ⟨stored, w1, store, rest⟩ := run_bind_ok.mp returned
    cases rest
    obtain ⟨_, _, _, final⟩ := run_bind_ok.mp store
    obtain ⟨_, _, _, final⟩ := run_bind_ok.mp final
    cases final
    refine .inr ⟨?_, rfl, store⟩
    rwa [accounts_eq wf.present]

/-- A money call with nobody logged in only answers; otherwise it rewrites the
current account, stores the list and answers with the balance it then has. -/
theorem ecallMy_cases (wf : WellFormed w manager)
    {deal : Account → UInt64 → ProcessResult × Account} {amount value : UInt64}
    (returned : (ecallMy sgx (dealMy deal) amount).run w = .ok (value, w')) :
    (manager.currentAccount = none ∧ value = ProcessResult.needLogout.toUInt64 ∧ w' = w) ∨
      ∃ ptr account, manager.currentAccount = some ptr ∧ w.heap[ptr]? = some account ∧
        value = (deal account amount).2.deposits ∧
        (accountListStoreStorage sgx).run (w.rewrite ptr (deal account amount).2) =
          .ok (.processSuccess, w') := by
  rw [ecallMy, run_bind_of_ok (accountLogin_run wf.present)] at returned
  cases current : manager.currentAccount with
  | none =>
      rw [current] at returned
      cases returned
      exact .inl ⟨rfl, rfl, rfl⟩
  | some ptr =>
      have inside := wf.valid ptr (wf.current ptr current)
      have known := List.getElem?_eq_getElem inside
      rw [current, Option.isSome_some, if_pos rfl,
        run_bind_of_ok (dealMy_run wf.present current known deal amount)] at returned
      obtain ⟨stored, w1, store, rest⟩ := run_bind_ok.mp returned
      change (accountListStoreStorage sgx).run (w.rewrite ptr (deal w.heap[ptr] amount).2) = _
        at store
      have unchanged : (w.rewrite ptr (deal w.heap[ptr] amount).2).dealManager = some manager :=
        wf.present
      have frame := accountListStoreStorage_frame sgx unchanged (wf.rewrite_valid ptr _) store
      have present1 : w1.dealManager = some manager := frame.2.trans wf.present
      have known1 : w1.heap[ptr]? = some (deal w.heap[ptr] amount).2 := by
        rw [frame.1]
        exact List.getElem?_set_self inside
      rw [run_bind_of_ok (theCurrentAccount_run present1 current),
        run_bind_of_ok (deref_run known1)] at rest
      cases rest
      obtain ⟨_, _, _, final⟩ := run_bind_ok.mp store
      obtain ⟨_, _, _, final⟩ := run_bind_ok.mp final
      cases final
      exact .inr ⟨ptr, _, rfl, known, rfl, store⟩

theorem myInquiry_cases (wf : WellFormed w manager) {value : UInt64}
    (returned : ecallMyInquiry.run w = .ok (value, w')) :
    ∃ ptr account, manager.currentAccount = some ptr ∧ w.heap[ptr]? = some account ∧
      value = account.deposits ∧ w' = w := by
  cases current : manager.currentAccount with
  | none =>
      rw [ecallMyInquiry, run_bind_of_error (theCurrentAccount_run_null wf.present current)]
        at returned
      cases returned
  | some ptr =>
      have known := List.getElem?_eq_getElem (wf.valid ptr (wf.current ptr current))
      rw [ecallMyInquiry, run_bind_of_ok (theCurrentAccount_run wf.present current),
        run_bind_of_ok (deref_run known)] at returned
      cases returned
      exact ⟨ptr, _, rfl, known, rfl, rfl⟩

section Returns

variable {old : Bytes}

theorem newAccount_enrolls (wf : WellFormed w manager) (file : w.accountFile = some old)
    {name : CString} (fresh : ∀ account ∈ w.accounts, account.name ≠ name.bytes)
    (password : CString) : ∃ lines,
    EcallStep sgx w (.newAccount name password, .result .processSuccess)
      (((w.enroll manager (Account.newAccount name.bytes password.bytes)).store sgx
        (w.enrolled manager) old).print lines) := by
  rcases findAccount_run wf.valid name.bytes with ⟨ptr, account, member, known, named, _⟩ |
    ⟨_, absent⟩
  · exact absurd named (fresh account (List.mem_of_getElem? (wf.getElem? member known)))
  · obtain ⟨lines, stored⟩ := accountListStoreStorage_run sgx
      (w := w.enroll manager (Account.newAccount name.bytes password.bytes)) rfl
      (wf.enroll_valid _) file
    refine ⟨lines, run_map_ok.mpr ⟨.processSuccess, ?_, rfl⟩⟩
    rw [newAccount_fresh sgx wf.present absent, run_bind_of_ok stored]
    rfl

theorem newAccount_returns (wf : WellFormed w manager) (file : w.accountFile = some old)
    (name password : CString) :
    ∃ result w', (ecallNewAccount sgx name password).run w = .ok (result, w') := by
  rcases findAccount_run wf.valid name.bytes with ⟨ptr, account, _, known, _, found⟩ | ⟨_, absent⟩
  · exact ⟨_, _, newAccount_known sgx wf.present known found password⟩
  · obtain ⟨lines, stored⟩ := accountListStoreStorage_run sgx
      (w := w.enroll manager (Account.newAccount name.bytes password.bytes)) rfl
      (wf.enroll_valid _) file
    rw [newAccount_fresh sgx wf.present absent, run_bind_of_ok stored]
    exact ⟨_, _, rfl⟩

theorem ecallMy_returns (wf : WellFormed w manager) (file : w.accountFile = some old)
    (deal : Account → UInt64 → ProcessResult × Account) (amount : UInt64) :
    ∃ value w', (ecallMy sgx (dealMy deal) amount).run w = .ok (value, w') := by
  rw [ecallMy, run_bind_of_ok (accountLogin_run wf.present)]
  cases current : manager.currentAccount with
  | none => exact ⟨_, _, rfl⟩
  | some ptr =>
      have inside := wf.valid ptr (wf.current ptr current)
      have known := List.getElem?_eq_getElem inside
      have rewritten := dealMy_run wf.present current known deal amount
      obtain ⟨lines, stored⟩ := accountListStoreStorage_run sgx
        (w := w.rewrite ptr (deal w.heap[ptr] amount).2) wf.present (wf.rewrite_valid ptr _) file
      let after := ((w.rewrite ptr (deal w.heap[ptr] amount).2).store sgx manager old).print lines
      have presentAfter : after.dealManager = some manager := wf.present
      have readBack : after.heap[ptr]? = some (deal w.heap[ptr] amount).2 :=
        List.getElem?_set_self inside
      rw [Option.isSome_some, if_pos rfl, run_bind_of_ok rewritten]
      change ∃ value w', ((accountListStoreStorage sgx >>= _) : Bank UInt64).run
        (w.rewrite ptr (deal w.heap[ptr] amount).2) = _
      rw [run_bind_of_ok stored, run_bind_of_ok (theCurrentAccount_run presentAfter current),
        run_bind_of_ok (deref_run readBack)]
      exact ⟨_, _, rfl⟩

theorem myInquiry_returns (wf : WellFormed w manager) {ptr : AccountPtr}
    (current : manager.currentAccount = some ptr) :
    ∃ value w', ecallMyInquiry.run w = .ok (value, w') := by
  have known := List.getElem?_eq_getElem (wf.valid ptr (wf.current ptr current))
  rw [ecallMyInquiry, run_bind_of_ok (theCurrentAccount_run wf.present current),
    run_bind_of_ok (deref_run known)]
  exact ⟨_, _, rfl⟩

/-- Every call but the initialisation returns, an inquiry when somebody is logged in. -/
theorem ecall_returns (wf : WellFormed w manager) (file : w.accountFile ≠ none) {call : Ecall}
    (running : call ≠ .initManager) (loggedIn : call = .myInquiry → w.currentIndex ≠ none) :
    ∃ returned w', EcallStep sgx w (call, returned) w' := by
  obtain ⟨old, present⟩ := Option.ne_none_iff_exists'.mp file
  cases call with
  | initManager => exact absurd rfl running
  | newAccount name password =>
      obtain ⟨result, w', returned⟩ := newAccount_returns sgx wf present name password
      exact ⟨_, w', run_map_ok.mpr ⟨result, returned, rfl⟩⟩
  | myDeposit amount =>
      obtain ⟨value, w', returned⟩ := ecallMy_returns sgx wf present Account.deposit amount
      exact ⟨_, w', run_map_ok.mpr ⟨value, returned, rfl⟩⟩
  | myWithdraw amount =>
      obtain ⟨value, w', returned⟩ := ecallMy_returns sgx wf present Account.withdraw amount
      exact ⟨_, w', run_map_ok.mpr ⟨value, returned, rfl⟩⟩
  | myInquiry =>
      cases current : manager.currentAccount with
      | none => exact absurd (currentIndex_none wf.present current) (loggedIn rfl)
      | some ptr =>
          obtain ⟨value, w', returned⟩ := myInquiry_returns wf current
          exact ⟨_, w', run_map_ok.mpr ⟨value, returned, rfl⟩⟩

end Returns

end SeccapBank
