import SeccapBank.AccountListStore
import SeccapBank.EnclaveRuns

set_option autoImplicit false

/- The account file along a run: what it holds after every ecall, and what a restart
makes of it. -/
namespace SeccapBank

open CStrings Buffers Fallible Runs Ledgers

variable (sgx : Sgx) {w w' start : World} {manager : DealManager} {history : List Move}

/-- The content of a file that holds a list: nothing for the empty list, and else one
blob of the whole list, in 16 bits of size. -/
def FileHolds (content : Bytes) (accountList : List Account) : Prop :=
  accountList = [] ∧ content = [] ∨
    accountList ≠ [] ∧ sealedLength sgx .new accountList ≤ 65535 ∧
      ∃ call size, sgx.sealData call (cstr SealingUnsealing.new.addMacTxt) (marshalled accountList)
        size = some content

/-- A well-formed state whose file holds its list. -/
def Held (w : World) : Prop :=
  ∃ manager content, WellFormed w manager ∧ w.accountFile = some content ∧
    FileHolds sgx content w.accounts

/-- A call that sealed the list. -/
def Stores (move : Move) : Prop := move.pre.sealCalls < move.post.sealCalls

/-- A list that the call stored needs at most this many bytes when it is sealed. -/
def StoresWithin (limit : Nat) (move : Move) : Prop :=
  Stores move → sealedLength sgx .new move.post.accounts ≤ limit

theorem FileHolds.length (doc : sgx.Documented) {content : Bytes} {accountList : List Account}
    (holds : FileHolds sgx content accountList) :
    content.length ≤ sealedLength sgx .new accountList := by
  rcases holds with ⟨_, rfl⟩ | ⟨_, _, call, size, sealed⟩
  · exact Nat.zero_le _
  · obtain ⟨total, length⟩ := doc.seal_size _ _ _ _ _ sealed
    rw [length, total]
    exact Nat.le_refl _

/-- The length of the records depends on the names and passwords only. -/
theorem marshalled_length_of_identities (accountList : List Account) :
    (marshalled accountList).length =
      ((accountList.map fun account => (account.name, account.password)).map
        fun identity => identity.1.length + identity.2.length + 11).sum := by
  induction accountList with
  | nil => rfl
  | cons account rest ih =>
      rw [marshalled, List.flatMap_cons, List.length_append, record_length, account.sized]
      change _ + (marshalled rest).length = _
      rw [ih]
      simp [sizeofUInt64]

theorem sealedLength_mono (grown : w.identities <+: w'.identities) :
    sealedLength sgx .new w.accounts ≤ sealedLength sgx .new w'.accounts := by
  obtain ⟨rest, whole⟩ := grown
  have records : (marshalled w.accounts).length ≤ (marshalled w'.accounts).length := by
    rw [marshalled_length_of_identities, marshalled_length_of_identities]
    change (w.identities.map _).sum ≤ (w'.identities.map _).sum
    rw [← whole, List.map_append, List.sum_append]
    exact Nat.le_add_right _ _
  unfold sealedLength
  omega

/-- A store of a list that is not shorter than the one the file holds replaces the
whole content. -/
theorem store_holds (doc : sgx.Documented) (reliable : sgx.Reliable) (wf : WellFormed w manager)
    (nonempty : w.accounts ≠ []) (fits : sealedLength sgx .new w.accounts ≤ 65535) {old : Bytes}
    (room : old.length ≤ sealedLength sgx .new w.accounts) :
    ∃ content, (w.store sgx manager old).accountFile = some content ∧
      FileHolds sgx content w.accounts := by
  have size : (UInt32.ofNat (sealedLength sgx .new w.accounts)).toNat =
      sealedLength sgx .new w.accounts := by
    apply UInt32.toNat_ofNat_of_lt'
    show _ < 2 ^ 32
    omega
  obtain ⟨blob, sealed⟩ := reliable w.sealCalls (cstr SealingUnsealing.new.addMacTxt)
    (marshalled w.accounts) _ (marshalled_eq_nil.not.mpr nonempty) size
  have sealable : Sealable sgx .new w.sealCalls w.accounts := ⟨fits, blob, sealed⟩
  obtain ⟨blob', size', sealed', handed, length⟩ := handed_sealable sgx doc sealable
  refine ⟨blob', ?_, .inr ⟨nonempty, fits, w.sealCalls, size', sealed'⟩⟩
  rw [store_accountFile, wf.sealing, ← accounts_eq wf.present, handed,
    blit_length_of_le (by rw [length]; exact room)]

theorem FileHolds.congr {content : Bytes} {accountList other : List Account}
    (holds : FileHolds sgx content accountList) (same : marshalled other = marshalled accountList) :
    FileHolds sgx content other := by
  have empty : other = [] ↔ accountList = [] := by
    rw [← marshalled_eq_nil, same, marshalled_eq_nil]
  unfold FileHolds sealedLength at holds ⊢
  rwa [same, Ne, empty]

theorem FileHolds.empty_iff (doc : sgx.Documented) {content : Bytes} {accountList : List Account}
    (holds : FileHolds sgx content accountList) : content = [] ↔ accountList = [] := by
  rcases holds with ⟨noAccount, noByte⟩ | ⟨nonempty, _, call, size, sealed⟩
  · exact iff_of_true noByte noAccount
  · obtain ⟨total, length⟩ := doc.seal_size _ _ _ _ _ sealed
    have records : (marshalled accountList).length ≠ 0 := by
      rw [Ne, List.length_eq_zero_iff, marshalled_eq_nil]
      exact nonempty
    refine iff_of_false (fun empty => ?_) nonempty
    rw [empty, List.length_nil] at length
    omega

theorem newAccount_stored (wf : WellFormed w manager) {old : Bytes}
    (file : w.accountFile = some old) (name : CString)
    (fresh : ∀ account ∈ w.accounts, account.name ≠ name.bytes) (password : CString) :
    ∃ w', EcallStep sgx w (.newAccount name password, .result .processSuccess) w' ∧
      w'.accounts = w.accounts ++ [Account.newAccount name.bytes password.bytes] ∧
        w'.accountFile = some (blit old ((handedBuffer sgx .new w.sealCalls w'.accounts).take
          (handedSize sgx .new w'.accounts).toNat)) := by
  obtain ⟨lines, step⟩ := newAccount_enrolls sgx wf file fresh password
  have enrolled := enroll_wellFormed (Account.newAccount name.bytes password.bytes) wf
  have accounts := enroll_accounts (Account.newAccount name.bytes password.bytes) wf
  refine ⟨_, step, accounts, ?_⟩
  rw [World.print_accountFile, store_accountFile, enrolled.sealing, ← accounts_eq enrolled.present]
  rfl

theorem FileHolds.unseals (doc : sgx.Documented) {content : Bytes} {accountList : List Account}
    (holds : FileHolds sgx content accountList) (nonempty : content ≠ []) (before : World) :
    (unsealing sgx .new content).run before =
      .ok ((marshalled accountList, UInt16.ofNat (marshalled accountList).length), before) := by
  rcases holds with ⟨_, empty⟩ | ⟨_, _, call, size, sealed⟩
  · exact absurd empty nonempty
  · exact unsealing_run sgx doc sealed before

theorem FileHolds.size {content : Bytes} {accountList : List Account}
    (holds : FileHolds sgx content accountList) :
    (UInt16.ofNat (marshalled accountList).length).toNat = (marshalled accountList).length := by
  apply UInt16.toNat_ofNat_of_lt'
  show _ < 2 ^ 16
  rcases holds with ⟨rfl, _⟩ | ⟨_, fits, _⟩
  · decide
  · unfold sealedLength at fits
    omega

/-- What a restart loads has the records that the file holds. -/
theorem FileHolds.loads (doc : sgx.Documented) {content : Bytes}
    {accountList loaded : List Account} (holds : FileHolds sgx content accountList)
    (loads : Loads sgx content loaded) :
    marshalled loaded = marshalled accountList ∧ ∀ account ∈ loaded, CommaFree account := by
  rcases loads with ⟨empty, rfl⟩ | ⟨nonempty, data, size, before, after, unsealed, load⟩
  · rw [(holds.empty_iff sgx doc).mp empty]
    exact ⟨rfl, nofun⟩
  · rw [holds.unseals sgx doc nonempty before] at unsealed
    cases unsealed
    rw [holds.size] at load
    obtain ⟨same, _, clean⟩ := loadAccountList_sound load
    exact ⟨same, clean⟩

/-- A list that the separators do not cut is loaded as it was. -/
theorem FileHolds.restart (doc : sgx.Documented) {content : Bytes} {accountList : List Account}
    (holds : FileHolds sgx content accountList) (clean : ∀ account ∈ accountList, CommaFree account)
    (file : w.accountFile = some content) :
    ∃ lines, EcallStep sgx w (.initManager, .result .processSuccess)
      ((w.install accountList).print lines) := by
  have empty := holds.empty_iff sgx doc
  have loads : ∀ before : World, content ≠ [] → ∃ (data : Bytes) (size : UInt16),
      (unsealing sgx .new content).run before = .ok ((data, size), before) ∧
        loadAccountList data size.toNat = .ok accountList := by
    intro before nonempty
    refine ⟨_, _, holds.unseals sgx doc nonempty before, ?_⟩
    rw [holds.size]
    exact loadAccountList_marshalled (mt empty.mpr nonempty) clean
  obtain ⟨lines, returned⟩ := initManager_run sgx file loads empty.mp
  exact ⟨lines, run_map_ok.mpr ⟨_, returned, rfl⟩⟩

/-- A restart that returns keeps the file held, with a list of the same records that
no separator cuts. -/
theorem held_restart (doc : sgx.Documented) (held : Held sgx w) {answer : Returned}
    (step : EcallStep sgx w (.initManager, answer) w') :
    Held sgx w' ∧ answer = .result .processSuccess ∧ w'.currentIndex = none ∧
      marshalled w'.accounts = marshalled w.accounts ∧
        ∀ account ∈ w'.accounts, CommaFree account := by
  obtain ⟨manager, content, wf, file, holds⟩ := held
  obtain ⟨result, inner, rfl⟩ := run_map_ok.mp step
  obtain ⟨rfl, content', accountList, lines, file', loads, rfl⟩ := initManager_cases sgx inner
  obtain rfl := Option.some.inj (file.symm.trans file')
  obtain ⟨same, clean⟩ := holds.loads sgx doc loads
  have opened : WellFormed ((w.install accountList).print lines) (installedManager w accountList) :=
    (install_wellFormed w accountList).of_frame rfl rfl
  have accounts : ((w.install accountList).print lines).accounts = accountList :=
    install_accounts w accountList
  refine ⟨⟨_, content, opened, file, ?_⟩, rfl, currentIndex_none opened.present rfl, ?_, ?_⟩
  · rw [accounts]
    exact holds.congr sgx same
  · rw [accounts]
    exact same
  · rw [accounts]
    exact clean

theorem held_running (doc : sgx.Documented) (reliable : sgx.Reliable) (held : Held sgx w)
    {label : Ecall × Returned} (running : label.1 ≠ .initManager)
    (step : EcallStep sgx w label w') (fits : StoresWithin sgx 65535 ⟨w, label, w'⟩) :
    Held sgx w' := by
  obtain ⟨manager, content, wf, file, holds⟩ := held
  obtain ⟨call, returned⟩ := label
  obtain ⟨manager', answer, wf', _, refined⟩ := ecall_refines sgx wf running step
  have grown : w.identities <+: w'.identities := by
    rw [← ledger_identities, ← ledger_identities]
    exact refined.identities_grow
  rcases ecall_stores sgx wf running step with ⟨same, unchanged, _⟩ |
    ⟨middle, manager'', old, lines, stored, nonempty, _, before, calls, rfl⟩
  · exact ⟨manager', content, wf', unchanged.trans file, same ▸ holds⟩
  · have accounts : ((middle.store sgx manager'' old).print lines).accounts = middle.accounts := rfl
    have counted : Stores ⟨w, (call, returned), (middle.store sgx manager'' old).print lines⟩ := by
      show w.sealCalls < middle.sealCalls + 1
      omega
    have small : sealedLength sgx .new middle.accounts ≤ 65535 := fits counted
    obtain rfl := Option.some.inj (file.symm.trans before)
    have room : content.length ≤ sealedLength sgx .new middle.accounts :=
      (holds.length sgx doc).trans (sealedLength_mono sgx grown)
    obtain ⟨content', now, holds'⟩ := store_holds sgx doc reliable stored nonempty small room
    exact ⟨manager', content', wf', now, accounts ▸ holds'⟩

/-- Every call, a restart included, keeps the file held. -/
theorem held_step (doc : sgx.Documented) (reliable : sgx.Reliable) (held : Held sgx w)
    {label : Ecall × Returned} (step : EcallStep sgx w label w')
    (fits : StoresWithin sgx 65535 ⟨w, label, w'⟩) : Held sgx w' := by
  obtain ⟨call, returned⟩ := label
  by_cases opening : call = .initManager
  · subst opening
    exact (held_restart sgx doc held step).1
  · exact held_running sgx doc reliable held opening step fits

theorem held_run (doc : sgx.Documented) (reliable : sgx.Reliable) (held : Held sgx start)
    (fits : ∀ move ∈ history, StoresWithin sgx 65535 move) (run : EcallRun sgx start history w) :
    Held sgx w := by
  induction run with
  | nil => exact held
  | snoc _ last ih =>
      have earlier := ih fun move member => fits move (List.mem_append_left _ member)
      have newest := fits _ (List.mem_append_right _ (List.mem_singleton_self _))
      exact held_step sgx doc reliable earlier last newest

def Ecall.CommaFree : Ecall → Prop
  | .newAccount name password => comma ∉ name.bytes ∧ comma ∉ password.bytes
  | _ => True

instance (call : Ecall) : Decidable call.CommaFree := by
  cases call <;> unfold Ecall.CommaFree <;> infer_instance

/-- A held state whose list the separators do not cut. -/
def Synced (w : World) : Prop := Held sgx w ∧ ∀ account ∈ w.accounts, SeccapBank.CommaFree account

theorem synced_opening {before : World} {answer : Returned} (empty : before.accountFile = some [])
    (step : EcallStep sgx before (.initManager, answer) start) :
    Synced sgx start ∧ start.accounts = [] ∧ start.currentIndex = none := by
  obtain ⟨result, inner, _⟩ := run_map_ok.mp step
  obtain ⟨_, content, accountList, lines, file, loads, rfl⟩ := initManager_cases sgx inner
  obtain rfl := Option.some.inj (empty.symm.trans file)
  rcases loads with ⟨_, rfl⟩ | ⟨nonempty, _⟩
  · have opened : WellFormed ((before.install []).print lines) (installedManager before []) :=
      (install_wellFormed before []).of_frame rfl rfl
    have accounts : ((before.install []).print lines).accounts = [] := install_accounts before []
    refine ⟨⟨⟨_, [], opened, file, .inl ⟨accounts, rfl⟩⟩, ?_⟩, accounts,
      currentIndex_none opened.present rfl⟩
    rw [accounts]
    exact nofun
  · exact absurd rfl nonempty

/-- From a synced state every call, a restart included, is a step of the ledger to a
synced state. -/
theorem synced_step (doc : sgx.Documented) (reliable : sgx.Reliable) (synced : Synced sgx w)
    {label : Ecall × Returned} (separated : label.1.CommaFree) (step : EcallStep sgx w label w')
    (fits : StoresWithin sgx 65535 ⟨w, label, w'⟩) :
    Synced sgx w' ∧ ∃ answer, label.2 = answerReturned answer ∧
      LedgerStep w.ledger (label.1.op, answer) w'.ledger := by
  obtain ⟨held, clean⟩ := synced
  have held' := held_step sgx doc reliable held step fits
  obtain ⟨call, returned⟩ := label
  by_cases opening : call = .initManager
  · subst opening
    obtain ⟨_, rfl, nobody, same, clean'⟩ := held_restart sgx doc held step
    have accounts : w'.accounts = w.accounts := marshalled_inj clean' clean same
    refine ⟨⟨held', clean'⟩, .granted, rfl, ?_⟩
    have reopened : w'.ledger = ⟨w.ledger.entries, none⟩ := by
      rw [World.ledger, accounts, nobody]
      rfl
    rw [reopened]
    exact .reopened
  · obtain ⟨manager, content, wf, _, _⟩ := held
    obtain ⟨manager', answer, _, encoded, refined⟩ := ecall_refines sgx wf opening step
    refine ⟨⟨held', ?_⟩, answer, encoded, refined⟩
    intro account member
    have identity : (account.name, account.password) ∈ w'.ledger.identities := by
      rw [ledger_identities]
      exact List.mem_map_of_mem member
    rcases refined.identities_new identity with old | entered
    · rw [ledger_identities] at old
      obtain ⟨known, present, pair⟩ := List.mem_map.mp old
      obtain ⟨name, password⟩ := Prod.mk.inj pair
      have cleanKnown := clean known present
      unfold SeccapBank.CommaFree at cleanKnown ⊢
      rwa [name, password] at cleanKnown
    · cases call with
      | newAccount name password =>
          obtain ⟨named, given⟩ := Op.enter.inj entered
          have cleanNew : comma ∉ name.bytes ∧ comma ∉ password.bytes := separated
          rw [named, given] at cleanNew
          exact cleanNew
      | _ => cases entered

/-- From a synced state every call returns, an inquiry when somebody is logged in. -/
theorem synced_returns (doc : sgx.Documented) (synced : Synced sgx w) {call : Ecall}
    (loggedIn : call = .myInquiry → w.currentIndex ≠ none) :
    ∃ returned w', EcallStep sgx w (call, returned) w' := by
  obtain ⟨⟨manager, content, wf, file, holds⟩, clean⟩ := synced
  by_cases opening : call = .initManager
  · subst opening
    obtain ⟨lines, restarted⟩ := holds.restart sgx doc clean file
    exact ⟨_, _, restarted⟩
  · exact ecall_returns sgx wf (by simp [file]) opening loggedIn

/-- Every run of separated calls whose stores fit stays synced, and is a run of the
ledger from its state on. -/
theorem synced_run (doc : sgx.Documented) (reliable : sgx.Reliable) (synced : Synced sgx start)
    (separated : ∀ move ∈ history, move.label.1.CommaFree)
    (fits : ∀ move ∈ history, StoresWithin sgx 65535 move) (run : EcallRun sgx start history w) :
    Synced sgx w ∧ ∃ ledgerHistory, Run LedgerStep start.ledger ledgerHistory w.ledger := by
  have simulates : ∀ move ∈ history, Synced sgx move.pre →
      EcallStep sgx move.pre move.label move.post →
      ∃ label' : Op Bytes Bytes × Answer, True ∧
        LedgerStep move.pre.ledger label' move.post.ledger ∧ Synced sgx move.post := by
    intro move member synced step
    obtain ⟨synced', answer, _, refined⟩ :=
      synced_step sgx doc reliable synced (separated move member) step (fits move member)
    exact ⟨_, trivial, refined, synced'⟩
  obtain ⟨synced', ledgerHistory, ledgerRun, _⟩ := run.simulate World.ledger
    (fun _ (_ : Op Bytes Bytes × Answer) => True) (Synced sgx) synced simulates
  exact ⟨synced', ledgerHistory, ledgerRun⟩

/-- A restart returns and brings back the list of this state. -/
def Restarts (w : World) : Prop :=
  ∃ w', EcallStep sgx w (.initManager, .result .processSuccess) w' ∧ w'.accounts = w.accounts

theorem synced_restarts (doc : sgx.Documented) (synced : Synced sgx w) : Restarts sgx w := by
  obtain ⟨⟨manager, content, wf, file, holds⟩, clean⟩ := synced
  obtain ⟨lines, restarted⟩ := holds.restart sgx doc clean file
  exact ⟨_, restarted, install_accounts w w.accounts⟩

/-- The size check against the limit does not fire at the stores of this call. -/
def LimitSilent (move : Move) : Prop :=
  Stores move → ¬ (10000 : UInt32) <
    sealedDataSize sgx .new (UInt16.ofNat (marshalled move.post.accounts).length).toUInt32

/-- What the call stores is not cut by the narrowing of its size. -/
def StoredUncut (move : Move) : Prop :=
  Stores move → (marshalled move.post.accounts).length < 2 ^ 16

instance (move : Move) : Decidable (LimitSilent sgx move) :=
  inferInstanceAs (Decidable (_ < _ → ¬ _ < _))

instance (move : Move) : Decidable (StoredUncut move) :=
  inferInstanceAs (Decidable (_ < _ → _ < _))

theorem limitSilent_within (doc : sgx.Documented) {move : Move} (silent : LimitSilent sgx move)
    (uncut : StoredUncut move) : StoresWithin sgx 65535 move := by
  intro stores
  have mac : (cstr SealingUnsealing.new.addMacTxt).length < 2 ^ 16 := by decide
  have computed := sealedDataSize_toNat sgx doc mac (uncut stores)
  have small := silent stores
  rw [UInt32.lt_iff_toNat_lt, computed] at small
  have limit : (10000 : UInt32).toNat = 10000 := rfl
  omega

/-- Durability across restarts, in every run that stores no list of 2^16 bytes or
more: a restart brings the list back, and every next call returns. -/
theorem durable_run (doc : sgx.Documented) (reliable : sgx.Reliable) {before : World}
    {answer : Returned} (empty : before.accountFile = some [])
    (opening : EcallStep sgx before (.initManager, answer) start)
    (run : EcallRun sgx start history w)
    (separated : ∀ move ∈ history, move.label.1.CommaFree)
    (silent : ∀ move ∈ history, LimitSilent sgx move)
    (uncut : ∀ move ∈ history, StoredUncut move) :
    Restarts sgx w ∧ ∀ call, (call = .myInquiry → w.currentIndex ≠ none) →
      ∃ returned w', EcallStep sgx w (call, returned) w' := by
  have fits : ∀ move ∈ history, StoresWithin sgx 65535 move := fun move member =>
    limitSilent_within sgx doc (silent move member) (uncut move member)
  obtain ⟨synced, _⟩ := synced_run sgx doc reliable (synced_opening sgx empty opening).1
    separated fits run
  exact ⟨synced_restarts sgx doc synced,
    fun call loggedIn => synced_returns sgx doc synced loggedIn⟩

/-- A session with a registration, a deposit, a restart and a login. -/
def ordinaryCalls : List Ecall :=
  [.newAccount ⟨ascii "a", by decide⟩ ⟨ascii "p", by decide⟩, .myDeposit 5, .initManager,
    .newAccount ⟨ascii "a", by decide⟩ ⟨ascii "p", by decide⟩]

theorem durable_session : ∃ history w, EcallRun clearSealing emptyBank history w ∧
    w.balanceAt 0 = 5 ∧ Restarts clearSealing w := by
  have checked : (ecallTrace clearSealing ordinaryCalls emptyBank).map (fun traced =>
      (decide (∀ move ∈ traced.1, LimitSilent clearSealing move ∧ StoredUncut move),
        traced.2.balanceAt 0)) = .ok (true, 5) := by
    decide +kernel
  obtain ⟨⟨history, w⟩, traced, facts⟩ := map_ok checked
  obtain ⟨conditions, balance⟩ := Prod.mk.inj facts
  have conditions := of_decide_eq_true conditions
  obtain ⟨run, made⟩ := ecallTrace_run clearSealing traced
  have durable := durable_run clearSealing clearSealing_documented clearSealing_reliable rfl
    (emptyBank_opening clearSealing) run (made_all Ecall.CommaFree made (by decide))
    (fun move member => (conditions move member).1) (fun move member => (conditions move member).2)
  exact ⟨history, w, run, balance, durable.1⟩

/-- A first account whose record has 13 bytes. -/
def firstAccount : Account := Account.newAccount (ascii "a") (ascii "p")

/-- An account whose record has exactly 2^16 bytes. -/
def wideAccount : Account := Account.newAccount (List.replicate 65525 98) []

theorem cut_length : (marshalled [firstAccount, wideAccount]).length = 65549 := by
  have wide : (marshalled [wideAccount]).length = 65536 := by
    rw [marshalled_singleton, record_length, wideAccount.sized, wideAccount, Account.newAccount,
      Account.new_name, Account.new_password, List.length_replicate]
    rfl
  have first : (marshalled [firstAccount]).length = 13 := by decide
  rw [← List.singleton_append, marshalled_append, List.length_append, first, wide]

theorem cut_handedSize : handedSize clearSealing .new [firstAccount, wideAccount] = 573 := by
  rw [handedSize, cut_length]
  decide +kernel

theorem cut_handed (call : Nat) : ∃ blob, FileHolds clearSealing blob [firstAccount] ∧
    blob.length = 573 ∧ (handedBuffer clearSealing .new call [firstAccount, wideAccount]).take
      (handedSize clearSealing .new [firstAccount, wideAccount]).toNat = blob := by
  have low : (UInt16.ofNat 65549).toNat = 13 := by decide
  have first : (marshalled [firstAccount]).length = 13 := by decide
  have plain : (marshalled [firstAccount, wideAccount]).take 13 = marshalled [firstAccount] := by
    rw [← List.singleton_append, marshalled_append, List.take_left' first]
  have nonempty : marshalled [firstAccount] ≠ [] := by decide
  obtain ⟨blob, sealed⟩ := clearSealing_reliable call (cstr SealingUnsealing.new.addMacTxt)
    (marshalled [firstAccount]) (573 : UInt16).toUInt32 nonempty (by decide +kernel)
  obtain ⟨_, length⟩ := clearSealing_documented.seal_size _ _ _ _ _ sealed
  refine ⟨blob, .inr ⟨by decide, by decide +kernel, call, _, sealed⟩, length, ?_⟩
  rw [handedBuffer_eq, cut_handedSize, cut_length, low, plain, sealed]
  exact List.take_of_length_le (by rw [length]; decide)

/-- Registering a second account of 2^16 bytes passes the size check and stores only
the first one; a restart loses the second. -/
theorem cut_session : ∃ before answer start history w, before.accountFile = some [] ∧
    EcallStep clearSealing before (.initManager, answer) start ∧
      EcallRun clearSealing start history w ∧ (∀ move ∈ history, move.label.1.CommaFree) ∧
        (∀ move ∈ history, LimitSilent clearSealing move) ∧ ¬ Restarts clearSealing w := by
  have wideFree : (0 : UInt8) ∉ List.replicate 65525 98 ∧ comma ∉ List.replicate 65525 98 :=
    ⟨fun member => absurd (List.eq_of_mem_replicate member) (by decide),
      fun member => absurd (List.eq_of_mem_replicate member) (by decide)⟩
  obtain ⟨⟨⟨manager, content, wf, file, holds⟩, _⟩, none, _⟩ :=
    synced_opening clearSealing rfl (emptyBank_opening clearSealing)
  -- the first account is stored as it should be
  obtain ⟨w1, first, accounts1, _⟩ := newAccount_stored clearSealing wf file
    ⟨ascii "a", by decide⟩ (by rw [none]; exact nofun) ⟨ascii "p", by decide⟩
  rw [none] at accounts1
  change w1.accounts = [firstAccount] at accounts1
  have small : sealedLength clearSealing .new w1.accounts = 573 := by
    rw [accounts1]
    decide +kernel
  obtain ⟨manager1, content1, wf1, file1, holds1⟩ := held_running clearSealing
    clearSealing_documented clearSealing_reliable ⟨manager, content, wf, file, holds⟩ (by simp)
    first (fun _ => by show sealedLength _ _ w1.accounts ≤ _; omega)
  -- of the second one only the low 16 bits of its size are left
  have fresh : ∀ account ∈ w1.accounts, account.name ≠ List.replicate 65525 98 := by
    rw [accounts1]
    intro account member same
    have length := congrArg List.length same
    rw [List.mem_singleton.mp member, List.length_replicate] at length
    exact absurd length (by decide)
  obtain ⟨w2, second, accounts2, file2⟩ := newAccount_stored clearSealing wf1 file1
    ⟨List.replicate 65525 98, wideFree.1⟩ fresh ⟨[], by decide⟩
  rw [accounts1] at accounts2
  change w2.accounts = [firstAccount, wideAccount] at accounts2
  obtain ⟨blob, holdsFirst, length, handed⟩ := cut_handed w1.sealCalls
  have room : content1.length ≤ blob.length := by
    have bound := holds1.length clearSealing clearSealing_documented
    omega
  rw [accounts2, handed, blit_length_of_le room] at file2
  refine ⟨_, _, emptyBank, _, w2, rfl, emptyBank_opening clearSealing,
    (Run.nil.snoc first).snoc second, ?_, ?_, ?_⟩
  · intro move member
    rcases List.mem_pair.mp member with rfl | rfl
    · exact ⟨by decide, by decide⟩
    · exact ⟨wideFree.2, nofun⟩
  · intro move member
    rcases List.mem_pair.mp member with rfl | rfl
    · intro _
      rw [accounts1]
      decide +kernel
    · intro _
      rw [accounts2, cut_length]
      decide +kernel
  · rintro ⟨w3, restart, same⟩
    obtain ⟨_, inner, _⟩ := run_map_ok.mp restart
    obtain ⟨_, content2, accountList, lines, file3, loads, rfl⟩ :=
      initManager_cases clearSealing inner
    obtain rfl := Option.some.inj (file2.symm.trans file3)
    obtain ⟨records, _⟩ := holdsFirst.loads clearSealing clearSealing_documented loads
    have loaded : accountList = [firstAccount, wideAccount] :=
      (install_accounts w2 accountList).symm.trans (same.trans accounts2)
    have lengths := congrArg List.length records
    rw [loaded, cut_length] at lengths
    exact absurd lengths (by decide)

end SeccapBank
