import SeccapBank.EnclaveRuns

set_option autoImplicit false

/- Balances over whole runs of the ecalls, in the terms of the enclave itself. -/
namespace SeccapBank

open CStrings Fallible Runs Ledgers

variable (sgx : Sgx) {w w' start : World} {manager : DealManager} {history : List Move}

/-- What a call moves on the account at a place: the amount of a deposit that was
accepted while it was the current one, and minus the amount of such a withdrawal. -/
def moved (i : Nat) (move : Move) : Int :=
  if move.pre.currentIndex = some i then
    match move.pre.currentAccount, move.label.1 with
    | some account, .myDeposit amount =>
        if (account.deposit amount).1 = .processSuccess then amount.toNat else 0
    | some account, .myWithdraw amount =>
        if (account.withdraw amount).1 = .processSuccess then -(amount.toNat : Int) else 0
    | _, _ => 0
  else 0

/-- What one call of a run guarantees. -/
structure ExactMove (move : Move) : Prop where
  /-- No sum or difference wraps. -/
  moves : ∀ i, (move.post.balanceAt i : Int) = move.pre.balanceAt i + moved i move
  /-- The two guards of the deals, as bounds on integers. -/
  accepts : ∀ account, move.pre.currentAccount = some account → ∀ amount : UInt64,
    ((account.deposit amount).1 = .processSuccess ↔
        account.deposits.toNat + amount.toNat ≤ 2 ^ 64 - 1) ∧
      ((account.withdraw amount).1 = .processSuccess ↔ amount.toNat ≤ account.deposits.toNat)
  /-- A money operation keeps every name and password and every other account. -/
  keeps : move.label.1.IsMoney → move.post.identities = move.pre.identities ∧
    ∀ j, move.pre.currentIndex ≠ some j → move.post.accounts[j]? = move.pre.accounts[j]?
  /-- Whoever is logged in gets the balance after the call. -/
  answers : move.label.1.IsMoney ∨ move.label.1 = .myInquiry → move.pre.currentIndex ≠ none →
    move.post.currentIndex = move.pre.currentIndex ∧
      ∃ account, move.post.currentAccount = some account ∧
        move.label.2 = .value account.deposits

/-- What a call moves is the credit of the ledger operation it refines. -/
theorem moved_eq_credit (wf : WellFormed w manager) (i : Nat) (call : Ecall) (returned : Returned)
    (answer : Answer) :
    moved i ⟨w, (call, returned), w'⟩ =
      credit maxDeposits i ⟨w.ledger, (call.op, answer), w'.ledger⟩ := by
  by_cases here : w.currentIndex = some i
  · obtain ⟨account, current, present⟩ := current_known wf here
    have known : w.ledger.balanceAt i = account.deposits.toNat := by
      rw [ledger_balanceAt, World.balanceAt, present]
      rfl
    have selected : w.ledger.selected = some i := here
    cases call with
    | myDeposit amount =>
        simp only [moved, credit, here, current, selected, known, Ecall.op, ↓reduceIte,
          account.deposit_success, maxDeposits]
    | myWithdraw amount =>
        simp only [moved, credit, here, current, selected, known, Ecall.op, ↓reduceIte,
          account.withdraw_success]
    | initManager => simp [moved, credit, Ecall.op]
    | newAccount name password => simp [moved, credit, Ecall.op]
    | myInquiry => simp [moved, credit, Ecall.op]
  · have other : w.ledger.selected ≠ some i := here
    rw [moved, if_neg here, credit, if_neg other]

theorem moved_sum {ledgerHistory : List (Transition (Ledger Bytes Bytes) (Op Bytes Bytes × Answer))}
    (related : List.Forall₂ Refines history ledgerHistory) (i : Nat) :
    history.map (moved i) = ledgerHistory.map (credit maxDeposits i) := by
  have pointwise : List.Forall₂ (· = ·) (history.map (moved i))
      (ledgerHistory.map (credit maxDeposits i)) := by
    rw [List.forall₂_map_left_iff, List.forall₂_map_right_iff]
    refine related.imp ?_
    rintro ⟨pre, ⟨call, returned⟩, post⟩ ⟨pre', ⟨op, answer⟩, post'⟩ ⟨⟨_, wf⟩, rfl, rfl, rfl⟩
    exact moved_eq_credit wf i call returned answer
  rwa [List.forall₂_eq_eq_eq] at pointwise

/-- One call from a well-formed state is exact. -/
theorem ecall_exact (wf : WellFormed w manager) {label : Ecall × Returned}
    (running : label.1 ≠ .initManager) (step : EcallStep sgx w label w') :
    ExactMove ⟨w, label, w'⟩ := by
  obtain ⟨call, returned⟩ := label
  obtain ⟨manager', answer, wf', encoded, refined⟩ := ecall_refines sgx wf running step
  refine ⟨fun i => ?_, fun account _ amount => ?_, fun money => ⟨?_, fun j other => ?_⟩,
    fun asked loggedIn => ?_⟩
  · have exact := refined.balance i
    rwa [ledger_balanceAt, ledger_balanceAt, ← moved_eq_credit wf i call returned answer] at exact
  · exact ⟨account.deposit_success amount, account.withdraw_success amount⟩
  · have kept := (refined.asked_keeps (op_asked (.inl money))).2
    rwa [ledger_identities, ledger_identities] at kept
  · exact ledger_getElem?_inj (refined.money_frame (op_isMoney money) other)
  · obtain ⟨i, selected⟩ := Option.ne_none_iff_exists'.mp loggedIn
    have still : w'.currentIndex = w.currentIndex := (refined.asked_keeps (op_asked asked)).1
    obtain ⟨e, known, rfl⟩ := refined.answer_selected (op_asked asked) selected
    rw [World.ledger, List.getElem?_map] at known
    obtain ⟨account, found, rfl⟩ := Option.map_eq_some_iff.mp known
    refine ⟨still, account, ?_, ?_⟩
    · show w'.currentIndex.bind (w'.accounts[·]?) = some account
      rw [still, selected, Option.bind_some, found]
    · rw [encoded, answerReturned, Account.entry, UInt64.ofNat_toNat]

/-- Ledger exactness: from any state reached after an initialisation, over any run of
the other ecalls, each balance moves by exactly the accepted amounts, every call of
the run is exact, and the next call returns. -/
theorem ledger_exact (reached : Reached sgx start)
    (running : ∀ move ∈ history, move.label.1 ≠ .initManager)
    (run : EcallRun sgx start history w) :
    start.identities <+: w.identities ∧
      (∀ i, (w.balanceAt i : Int) = start.balanceAt i + (history.map (moved i)).sum) ∧
      (∀ move ∈ history, ExactMove move) ∧
      ∀ call, call ≠ .initManager → (call = .myInquiry → w.currentIndex ≠ none) →
        ∃ returned w', EcallStep sgx w (call, returned) w' := by
  obtain ⟨⟨manager, wf⟩, _⟩ := reached.ready
  obtain ⟨ledgerHistory, ledgerRun, related⟩ := ecallRun_refines sgx wf running run
  refine ⟨?_, fun i => ?_, fun move member => ?_, fun call other loggedIn => ?_⟩
  · exact identities_grow sgx wf running run
  · have total := balance_run ledgerRun i
    rwa [ledger_balanceAt, ledger_balanceAt, ← moved_sum related i] at total
  · obtain ⟨step, earlier, later, _, reachedThere, _⟩ := run.of_mem member
    obtain ⟨⟨manager', wf'⟩, _⟩ := (reached.extend sgx reachedThere).ready
    exact ecall_exact sgx wf' (running move member) step
  · obtain ⟨⟨manager', wf'⟩, file⟩ := (reached.extend sgx run).ready
    exact ecall_returns sgx wf' file other loggedIn

/-- One account, an accepted deposit and a refused withdrawal. -/
theorem ledger_exact_session : ∃ history w, EcallRun clearSealing emptyBank history w ∧
    w.balanceAt 0 = 5 ∧ (w.balanceAt 0 : Int) = 0 + (history.map (moved 0)).sum := by
  have deposited : (ecallTrace clearSealing
      [.newAccount ⟨ascii "a", by decide⟩ ⟨ascii "p", by decide⟩, .myDeposit 5, .myWithdraw 7]
      emptyBank).map (fun traced => traced.2.balanceAt 0) = .ok 5 := by
    decide +kernel
  obtain ⟨⟨history, w⟩, traced, balance⟩ := map_ok deposited
  obtain ⟨run, made⟩ := ecallTrace_run clearSealing traced
  have running : ∀ move ∈ history, move.label.1 ≠ .initManager :=
    made_all (· ≠ .initManager) made (by decide)
  have reached : Reached clearSealing emptyBank :=
    ⟨_, _, _, [], emptyBank_opening clearSealing, .nil⟩
  have exact := ledger_exact clearSealing reached running run
  exact ⟨history, w, run, balance, exact.2.1 0⟩

end SeccapBank
