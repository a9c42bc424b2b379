import SeccapBank.EnclaveInit
import SeccapBank.EnclaveLedger

set_option autoImplicit false

/- Runs of the ecalls: the states they reach, and the ledger runs they refine. -/
namespace SeccapBank

open CStrings Fallible Runs Ledgers

variable (sgx : Sgx) {w w' start : World} {manager : DealManager} {history : List Move}

/-- A state that the initialisation ecall and any ecalls after it lead to. -/
def Reached (w : World) : Prop :=
  ∃ before answer start earlier, EcallStep sgx before (.initManager, answer) start ∧
    EcallRun sgx start earlier w

/-- The account that `current_account` points to. -/
def World.currentAccount (w : World) : Option Account := w.currentIndex.bind (w.accounts[·]?)

/-- The balance at a place of the list, 0 where there is no account yet. -/
def World.balanceAt (w : World) (i : Nat) : Nat :=
  ((w.accounts[i]?).map fun account => account.deposits.toNat).getD 0

/-- The names and passwords, in order. -/
def World.identities (w : World) : List (Bytes × Bytes) :=
  w.accounts.map fun account => (account.name, account.password)

def Ecall.IsMoney : Ecall → Prop
  | .myDeposit _ => True
  | .myWithdraw _ => True
  | _ => False

/-- A call other than the initialisation keeps the list and the file, or it stores
the list that it ends with. -/
theorem ecall_stores (wf : WellFormed w manager) {call : Ecall} {returned : Returned}
    (running : call ≠ .initManager) (step : EcallStep sgx w (call, returned) w') :
    (w'.accounts = w.accounts ∧ w'.accountFile = w.accountFile ∧ w'.sealCalls = w.sealCalls) ∨
      ∃ middle manager' old lines, WellFormed middle manager' ∧ middle.accounts ≠ [] ∧
        middle.accountFile = some old ∧ w.accountFile = some old ∧
          middle.sealCalls = w.sealCalls ∧ w' = (middle.store sgx manager' old).print lines := by
  have money {deal : Account → UInt64 → ProcessResult × Account} {amount value : UInt64}
      (run : (ecallMy sgx (dealMy deal) amount).run w = .ok (value, w')) :
      (w'.accounts = w.accounts ∧ w'.accountFile = w.accountFile ∧ w'.sealCalls = w.sealCalls) ∨
        ∃ middle manager' old lines, WellFormed middle manager' ∧ middle.accounts ≠ [] ∧
          middle.accountFile = some old ∧ w.accountFile = some old ∧
            middle.sealCalls = w.sealCalls ∧ w' = (middle.store sgx manager' old).print lines := by
    rcases ecallMy_cases sgx wf run with ⟨_, _, rfl⟩ | ⟨ptr, account, current, known, _, store⟩
    · exact .inl ⟨rfl, rfl, rfl⟩
    · have rewritten := rewrite_wellFormed wf ptr (deal account amount).2
      have member := wf.current ptr current
      obtain ⟨_, old, lines, file, after⟩ :=
        accountListStoreStorage_cases sgx rewritten.present rewritten.valid store
      refine .inr ⟨_, manager, old, lines, rewritten, ?_, file, file, rfl, after⟩
      rw [rewrite_accounts _ wf member]
      intro empty
      have present := wf.getElem? member known
      rw [← List.length_eq_zero_iff, List.length_set, List.length_eq_zero_iff] at empty
      rw [empty] at present
      cases present
  cases call with
  | initManager => exact absurd rfl running
  | newAccount name password =>
      obtain ⟨result, inner, _⟩ := run_map_ok.mp step
      rcases newAccount_cases sgx wf inner with ⟨ptr, account, _, _, _, rfl, _⟩ | ⟨_, _, store⟩
      · exact .inl ⟨select_accounts wf.present ptr, rfl, rfl⟩
      · have enrolled := enroll_wellFormed (Account.newAccount name.bytes password.bytes) wf
        obtain ⟨_, old, lines, file, after⟩ :=
          accountListStoreStorage_cases sgx enrolled.present enrolled.valid store
        refine .inr ⟨_, _, old, lines, enrolled, ?_, file, file, rfl, after⟩
        rw [enroll_accounts _ wf]
        exact List.append_ne_nil_of_right_ne_nil _ (List.cons_ne_nil _ _)
  | myDeposit amount =>
      obtain ⟨value, inner, _⟩ := run_map_ok.mp step
      exact money inner
  | myWithdraw amount =>
      obtain ⟨value, inner, _⟩ := run_map_ok.mp step
      exact money inner
  | myInquiry =>
      obtain ⟨value, inner, _⟩ := run_map_ok.mp step
      obtain ⟨ptr, account, _, _, _, rfl⟩ := myInquiry_cases wf inner
      exact .inl ⟨rfl, rfl, rfl⟩

/-- A well-formed state in which the account file exists. -/
def Ready (w : World) : Prop := (∃ manager, WellFormed w manager) ∧ w.accountFile ≠ none

theorem initManager_ready {answer : Returned} (step : EcallStep sgx w (.initManager, answer) w') :
    Ready w' ∧ w'.currentIndex = none := by
  obtain ⟨result, inner, _⟩ := run_map_ok.mp step
  obtain ⟨_, content, accountList, lines, file, _, rfl⟩ := initManager_cases sgx inner
  have wf : WellFormed ((w.install accountList).print lines) (installedManager w accountList) :=
    (install_wellFormed w accountList).of_frame rfl rfl
  refine ⟨⟨⟨_, wf⟩, ?_⟩, currentIndex_none wf.present rfl⟩
  show w.accountFile ≠ none
  rw [file]
  exact Option.some_ne_none content

theorem ecall_ready {label : Ecall × Returned} (ready : Ready w) (step : EcallStep sgx w label w') :
    Ready w' := by
  obtain ⟨⟨manager, wf⟩, file⟩ := ready
  obtain ⟨call, returned⟩ := label
  by_cases opening : call = .initManager
  · subst opening
    exact (initManager_ready sgx step).1
  · obtain ⟨manager', _, wf', _, _⟩ := ecall_refines sgx wf opening step
    refine ⟨⟨manager', wf'⟩, ?_⟩
    rcases ecall_stores sgx wf opening step with ⟨_, same, _⟩ |
      ⟨_, _, old, lines, _, _, _, _, _, rfl⟩
    · rwa [same]
    · exact Option.some_ne_none _

/-- Every run keeps the manager well formed. -/
theorem wellFormed_run (wf : WellFormed start manager) (run : EcallRun sgx start history w) :
    ∃ manager, WellFormed w manager := by
  refine run.invariant (fun state => ∃ manager, WellFormed state manager) ⟨manager, wf⟩ ?_
  rintro before ⟨call, returned⟩ after ⟨manager', wf'⟩ step
  by_cases opening : call = .initManager
  · subst opening
    exact (initManager_ready sgx step).1.1
  · obtain ⟨manager'', _, wf'', _⟩ := ecall_refines sgx wf' opening step
    exact ⟨manager'', wf''⟩

theorem Reached.ready (reached : Reached sgx w) : Ready w := by
  obtain ⟨before, answer, start, earlier, opening, run⟩ := reached
  exact run.invariant Ready (initManager_ready sgx opening).1
    fun _ _ _ ready step => ecall_ready sgx ready step

theorem Reached.extend (reached : Reached sgx start) (run : EcallRun sgx start history w) :
    Reached sgx w := by
  obtain ⟨first, answer, opened, earlier, opening, toStart⟩ := reached
  exact ⟨first, answer, opened, earlier ++ history, opening, toStart.append run⟩

theorem currentAccount_eq (wf : WellFormed w manager) {ptr : AccountPtr} {account : Account}
    (current : manager.currentAccount = some ptr) (known : w.heap[ptr]? = some account) :
    w.currentAccount = some account := by
  rw [World.currentAccount, currentIndex_eq wf.present current, Option.bind_some,
    wf.getElem? (wf.current ptr current) known]

/-- A money call answers with the balance that its deal leaves the current account. -/
theorem ecallMy_current (wf : WellFormed w manager) {account : Account}
    (current : w.currentAccount = some account)
    {deal : Account → UInt64 → ProcessResult × Account} {amount value : UInt64}
    (returned : (ecallMy sgx (dealMy deal) amount).run w = .ok (value, w')) :
    value = (deal account amount).2.deposits ∧
      w'.currentAccount = some (deal account amount).2 := by
  rcases ecallMy_cases sgx wf returned with ⟨nobody, _, _⟩ |
    ⟨ptr, known, pointed, found, rfl, store⟩
  · rw [World.currentAccount, currentIndex_none wf.present nobody] at current
    cases current
  · obtain rfl : known = account := by
      rw [currentAccount_eq wf pointed found] at current
      exact Option.some.inj current
    have rewritten := rewrite_wellFormed wf ptr (deal known amount).2
    obtain ⟨heap, same⟩ := accountListStoreStorage_frame sgx rewritten.present rewritten.valid store
    have written : w'.heap[ptr]? = some (deal known amount).2 := by
      rw [heap]
      exact List.getElem?_set_self (wf.valid ptr (wf.current ptr pointed))
    exact ⟨rfl, currentAccount_eq (rewritten.of_frame heap same) pointed written⟩

/-- With nobody logged in a money call only answers that a login is needed. -/
theorem ecallMy_nobody (wf : WellFormed w manager) (nobody : w.currentAccount = none)
    {deal : Account → UInt64 → ProcessResult × Account} {amount value : UInt64}
    (returned : (ecallMy sgx (dealMy deal) amount).run w = .ok (value, w')) :
    value = ProcessResult.needLogout.toUInt64 ∧ w' = w := by
  rcases ecallMy_cases sgx wf returned with ⟨_, answered, same⟩ | ⟨ptr, _, pointed, found, _, _⟩
  · exact ⟨answered, same⟩
  · rw [currentAccount_eq wf pointed found] at nobody
    cases nobody

theorem current_known (wf : WellFormed w manager) {i : Nat} (current : w.currentIndex = some i) :
    ∃ account, w.currentAccount = some account ∧ w.accounts[i]? = some account := by
  cases pointed : manager.currentAccount with
  | none =>
      rw [currentIndex_none wf.present pointed] at current
      cases current
  | some ptr =>
      have member := wf.current ptr pointed
      have present := List.getElem?_eq_getElem (wf.valid ptr member)
      refine ⟨_, currentAccount_eq wf pointed present, ?_⟩
      rw [currentIndex_eq wf.present pointed] at current
      obtain rfl := Option.some.inj current
      exact wf.getElem? member present

theorem ledger_balanceAt (w : World) (i : Nat) : w.ledger.balanceAt i = w.balanceAt i := by
  rw [Ledger.balanceAt, World.balanceAt, World.ledger, List.getElem?_map, Option.map_map]
  rfl

theorem ledger_identities (w : World) : w.ledger.identities = w.identities := by
  rw [Ledger.identities, World.identities, World.ledger, List.map_map]
  rfl

theorem entry_inj {a b : Account} (same : a.entry = b.entry) : a = b := by
  obtain ⟨name, password, deposits⟩ := Entry.mk.inj same
  exact Account.ext_fields name password (UInt64.toNat_inj.mp deposits)

theorem ledger_getElem?_inj {i : Nat} (same : w'.ledger.entries[i]? = w.ledger.entries[i]?) :
    w'.accounts[i]? = w.accounts[i]? := by
  simp only [World.ledger, List.getElem?_map] at same
  exact Option.map_injective (fun _ _ => entry_inj) same

theorem op_isMoney {call : Ecall} (money : call.IsMoney) : call.op.IsMoney := by
  cases call with
  | myDeposit amount => trivial
  | myWithdraw amount => trivial
  | _ => cases money

theorem op_asked {call : Ecall} (asked : call.IsMoney ∨ call = .myInquiry) :
    call.op.IsMoney ∨ call.op = .inquire := by
  rcases asked with money | rfl
  · exact .inl (op_isMoney money)
  · exact .inr rfl

/-- The ledger move that a move refines. -/
def Refines (move : Move) (ledgerMove : Transition (Ledger Bytes Bytes) (Op Bytes Bytes × Answer)) :
    Prop :=
  (∃ manager, WellFormed move.pre manager) ∧ ledgerMove.label.1 = move.label.1.op ∧
    ledgerMove.pre = move.pre.ledger ∧ ledgerMove.post = move.post.ledger

/-- Every run of the ecalls is a run of the ledger, move for move. -/
theorem ecallRun_refines (wf : WellFormed w manager)
    (running : ∀ move ∈ history, move.label.1 ≠ .initManager) (run : EcallRun sgx w history w') :
    ∃ ledgerHistory, Run LedgerStep w.ledger ledgerHistory w'.ledger ∧
      List.Forall₂ Refines history ledgerHistory := by
  have simulates : ∀ move ∈ history, (∃ manager, WellFormed move.pre manager) →
      EcallStep sgx move.pre move.label move.post →
      ∃ label' : Op Bytes Bytes × Answer, label'.1 = move.label.1.op ∧
        LedgerStep move.pre.ledger label' move.post.ledger ∧
          ∃ manager, WellFormed move.post manager := by
    rintro move member ⟨_, wf⟩ step
    obtain ⟨manager', answer, wf', _, refined⟩ := ecall_refines sgx wf (running move member) step
    exact ⟨_, rfl, refined, manager', wf'⟩
  obtain ⟨_, ledgerHistory, ledgerRun, related⟩ := run.simulate World.ledger
    (fun label (label' : Op Bytes Bytes × Answer) => label'.1 = label.1.op)
    (fun state => ∃ manager, WellFormed state manager) ⟨manager, wf⟩ simulates
  exact ⟨ledgerHistory, ledgerRun, related⟩

/-- Names and passwords are never changed or removed. -/
theorem identities_grow (wf : WellFormed start manager)
    (running : ∀ move ∈ history, move.label.1 ≠ .initManager)
    (run : EcallRun sgx start history w) : start.identities <+: w.identities := by
  obtain ⟨ledgerHistory, ledgerRun, _⟩ := ecallRun_refines sgx wf running run
  have grown := identities_run ledgerRun
  rwa [ledger_identities, ledger_identities] at grown

theorem ledger_owners (w : World) : w.ledger.owners = w.accounts.map Account.name := by
  rw [Ledger.owners, World.ledger, List.map_map]
  rfl

theorem names_nodup (wf : WellFormed start manager)
    (distinct : (start.accounts.map Account.name).Nodup)
    (running : ∀ move ∈ history, move.label.1 ≠ .initManager)
    (run : EcallRun sgx start history w) : (w.accounts.map Account.name).Nodup := by
  obtain ⟨ledgerHistory, ledgerRun, _⟩ := ecallRun_refines sgx wf running run
  rw [← ledger_owners] at distinct ⊢
  exact owners_nodup_run distinct ledgerRun

theorem index_unique {i j : Nat} {a b : Account} (distinct : (w.accounts.map Account.name).Nodup)
    (known : w.accounts[i]? = some a) (known' : w.accounts[j]? = some b) (same : a.name = b.name) :
    i = j := by
  have entry {k : Nat} {c : Account} (found : w.accounts[k]? = some c) :
      w.ledger.entries[k]? = some c.entry := by
    rw [World.ledger, List.getElem?_map, found]
    rfl
  rw [← ledger_owners] at distinct
  exact owner_unique distinct (entry known) (entry known') same

/-- Money operations and inquiries change neither the session nor a name or password. -/
theorem asked_keeps (wf : WellFormed w manager) {call : Ecall} {returned : Returned}
    (asked : call.IsMoney ∨ call = .myInquiry) (step : EcallStep sgx w (call, returned) w') :
    w'.currentIndex = w.currentIndex ∧ w'.identities = w.identities := by
  have running : call ≠ .initManager := by
    rintro rfl
    rcases asked with money | inquiry
    · cases money
    · cases inquiry
  obtain ⟨manager', answer, _, _, refined⟩ := ecall_refines sgx wf running step
  have kept := refined.asked_keeps (op_asked asked)
  rw [ledger_identities, ledger_identities] at kept
  exact kept

def ownerLogin : Ecall :=
  .newAccount ⟨ascii "a", savedName_nulFree⟩ ⟨ascii "p", savedPassword_nulFree⟩

/-- The owner of the saved account, whose balance is 100, has logged in. -/
def ownerBank : World := { savedBank with dealManager := some ⟨.new, some 0, [0]⟩ }

theorem ownerBank_reached : Reached clearSealing ownerBank := by
  have entered : EcallStep clearSealing savedBank (ownerLogin, .result .processSuccess)
      ownerBank := by
    decide +kernel
  exact ⟨_, _, _, _, savedBank_opening, Run.nil.snoc entered⟩

end SeccapBank
