import SeccapBank.Durability
import SeccapBank.EcallOrder
import SeccapBank.General.Teller

set_option autoImplicit false

/- The enclave as the ledger machine: what every ecall returns, and where it faults,
as a function of the calls made. -/
namespace SeccapBank

open CStrings Buffers Fallible Runs Ledgers

variable (sgx : Sgx) {w w' : World} {manager : DealManager} {call : Ecall} {calls : List Ecall}
  {answer : Answer} {l' : Ledger Bytes Bytes}

instance : DecidableRel passwordAccepts := fun _ _ => inferInstanceAs (Decidable (_ = _))

/-- The machine over names and passwords. -/
abbrev ledgerPerform (l : Ledger Bytes Bytes) (op : Op Bytes Bytes) :
    Option (Answer × Ledger Bytes Bytes) :=
  perform passwordAccepts maxDeposits l op

abbrev ledgerPerforms (l : Ledger Bytes Bytes) (ops : List (Op Bytes Bytes)) :
    Option (List Answer × Ledger Bytes Bytes) :=
  performs passwordAccepts maxDeposits l ops

theorem ledgerPerforms_cons (l : Ledger Bytes Bytes) (op : Op Bytes Bytes)
    (ops : List (Op Bytes Bytes)) : ledgerPerforms l (op :: ops) =
      (ledgerPerform l op).bind fun first =>
        (ledgerPerforms first.2 ops).map fun rest => (first.1 :: rest.1, rest.2) := rfl

theorem ledger_sound (wf : WellFormed w manager) : w.ledger.Sound := by
  intro i selected
  obtain ⟨account, _, known⟩ := current_known wf selected
  have inside := (List.getElem?_eq_some_iff.mp known).1
  simpa [World.ledger] using inside

theorem findAccount_first {ptrs : List AccountPtr} (valid : w.Valid ptrs) (name : Bytes) :
    (findAccount name ptrs).run w =
      .ok (((w.listed ptrs).findIdx? fun account => account.name = name).bind (ptrs[·]?), w) := by
  induction ptrs with
  | nil => rfl
  | cons ptr rest ih =>
      obtain ⟨account, known⟩ : ∃ account, w.heap[ptr]? = some account :=
        ⟨_, List.getElem?_eq_getElem (valid ptr (List.mem_cons_self ..))⟩
      rw [findAccount, run_bind_of_ok (deref_run known), World.listed_cons known,
        List.findIdx?_cons]
      by_cases same : name = account.name
      · rw [if_pos same, if_pos (decide_eq_true same.symm)]
        rfl
      · rw [if_neg same, if_neg (by simpa using Ne.symm same),
          ih fun p member => valid p (List.mem_cons_of_mem _ member), Option.bind_map]
        rfl

theorem ledger_placeOf (w : World) (name : Bytes) :
    w.ledger.placeOf name = w.accounts.findIdx? fun account => account.name = name := by
  rw [Ledger.placeOf, World.ledger, List.findIdx?_map]
  rfl

/-- Login and registration return what the machine answers. -/
theorem newAccount_performed (wf : WellFormed w manager) {name password : CString}
    {result : ProcessResult}
    (returned : (ecallNewAccount sgx name password).run w = .ok (result, w')) :
    ∃ answer, .result result = answerReturned answer ∧
      ledgerPerform w.ledger (.enter name.bytes password.bytes) = some (answer, w'.ledger) := by
  have listed := accounts_eq wf.present
  have first := findAccount_first wf.valid name.bytes
  rw [← listed] at first
  rw [ledgerPerform, perform, ledger_placeOf]
  cases place : w.accounts.findIdx? fun account => account.name = name.bytes with
  | none =>
      rw [place] at first
      rw [newAccount_fresh sgx wf.present first] at returned
      obtain ⟨_, w1, store, rest⟩ := run_bind_ok.mp returned
      cases rest
      have enrolled := enroll_wellFormed (Account.newAccount name.bytes password.bytes) wf
      obtain ⟨heap, same⟩ :=
        accountListStoreStorage_frame sgx enrolled.present enrolled.valid store
      refine ⟨.granted, rfl, ?_⟩
      rw [ledger_of_frame heap same, enroll_ledger _ wf]
      rfl
  | some i =>
      obtain ⟨inside, _, _⟩ := List.findIdx?_eq_some_iff_getElem.mp place
      have bound : i < manager.accountList.length := by
        rwa [listed, listed_length wf.valid] at inside
      have known : w.heap[manager.accountList[i]]? = some w.accounts[i] := by
        have here := listed_getElem? wf.valid i
        rw [← listed, List.getElem?_eq_getElem inside, List.getElem?_eq_getElem bound,
          Option.bind_some] at here
        exact here.symm
      rw [place, Option.bind_some, List.getElem?_eq_getElem bound] at first
      rw [newAccount_known sgx wf.present known first] at returned
      cases returned
      have secret : w.ledger.secretAt i = some w.accounts[i].password := by
        simp [Ledger.secretAt, World.ledger, Account.entry, inside]
      refine ⟨_, ?_, by rw [select_ledger wf.present, wf.distinct.idxOf_getElem i bound]⟩
      simp only [secret, Option.mem_some_iff, exists_eq_left', passwordAccepts, CString.cstr_bytes]
      split <;> rfl

/-- Every ecall but the initialisation that returns has returned what the machine answers,
and left the ledger that the machine leaves. -/
theorem ecall_performed (wf : WellFormed w manager) {returned : Returned}
    (running : call ≠ .initManager) (step : EcallStep sgx w (call, returned) w') :
    ∃ answer, returned = answerReturned answer ∧
      ledgerPerform w.ledger call.op = some (answer, w'.ledger) := by
  have refined (other : ∀ owner secret, call.op ≠ .enter owner secret) :
      ∃ answer, returned = answerReturned answer ∧
        ledgerPerform w.ledger call.op = some (answer, w'.ledger) := by
    obtain ⟨_, answer, _, encoded, refined⟩ := ecall_refines sgx wf running step
    exact ⟨answer, encoded, refined.performed other⟩
  cases call with
  | initManager => exact absurd rfl running
  | newAccount name password =>
      obtain ⟨result, inner, rfl⟩ := run_map_ok.mp step
      exact newAccount_performed sgx wf inner
  | myDeposit amount => exact refined (by simp [Ecall.op])
  | myWithdraw amount => exact refined (by simp [Ecall.op])
  | myInquiry => exact refined (by simp [Ecall.op])

/-- Where the machine has an answer and there is a file, the ecall returns it. -/
theorem ecall_performs (wf : WellFormed w manager) (file : w.accountFile ≠ none)
    (running : call ≠ .initManager)
    (performed : ledgerPerform w.ledger call.op = some (answer, l')) :
    ∃ w', EcallStep sgx w (call, answerReturned answer) w' ∧ w'.ledger = l' := by
  have loggedIn : call = .myInquiry → w.currentIndex ≠ none := by
    rintro rfl nobody
    rw [ledgerPerform, Ecall.op, perform, show w.ledger.selected = none from nobody] at performed
    cases performed
  obtain ⟨returned, w', step⟩ := ecall_returns sgx wf file running loggedIn
  obtain ⟨answer', rfl, same⟩ := ecall_performed sgx wf running step
  cases performed.symm.trans same
  exact ⟨w', step, rfl⟩

/-- Where the machine has no answer, the ecall dereferences NULL. -/
theorem ecall_unanswered (wf : WellFormed w manager)
    (nothing : ledgerPerform w.ledger call.op = none) :
    (call.exec sgx).run w = .error .nullPointer := by
  cases call with
  | newAccount name password =>
      rw [ledgerPerform, Ecall.op, perform] at nothing
      split at nothing <;> cases nothing
  | myInquiry => exact initialised_null sgx wf (Option.map_eq_none_iff.mp nothing)
  | _ => cases nothing

section Synced

/-- The size of a blob that holds all entries. -/
def ledgerLength (l : Ledger Bytes Bytes) : Nat :=
  (l.identities.map fun identity => identity.1.length + identity.2.length + 11).sum +
    sgx.headerSize

/-- Every ledger on the way fits in a blob of at most 16 bits of size. -/
def FitsAlong : Ledger Bytes Bytes → List Ecall → Prop
  | _, [] => True
  | l, call :: calls => ∀ first ∈ ledgerPerform l call.op,
      ledgerLength sgx first.2 ≤ 65535 ∧ FitsAlong first.2 calls

instance decidableFitsAlong : (l : Ledger Bytes Bytes) → (calls : List Ecall) →
    Decidable (FitsAlong sgx l calls)
  | _, [] => inferInstanceAs (Decidable True)
  | l, call :: calls =>
      have (first : Answer × Ledger Bytes Bytes) := decidableFitsAlong first.2 calls
      inferInstanceAs (Decidable (∀ first ∈ ledgerPerform l call.op, _ ∧ _))

theorem ledgerLength_eq (w : World) :
    ledgerLength sgx w.ledger = sealedLength sgx .new w.accounts := by
  have noText : (cstr SealingUnsealing.new.addMacTxt).length = 0 := rfl
  rw [ledgerLength, ledger_identities, sealedLength, marshalled_length_of_identities, noText,
    Nat.zero_add]
  rfl

theorem initManager_stores {returned : Returned}
    (step : EcallStep sgx w (.initManager, returned) w') : w'.sealCalls = w.sealCalls := by
  obtain ⟨result, inner, _⟩ := run_map_ok.mp step
  obtain ⟨_, content, accountList, lines, _, _, rfl⟩ := initManager_cases sgx inner
  rfl

/-- From a synced state every separated call, a restart included, returns what the machine
answers, and leaves the ledger of the machine synced. -/
theorem synced_performs (doc : sgx.Documented) (reliable : sgx.Reliable) (synced : Synced sgx w)
    (separated : call.CommaFree)
    (performed : ledgerPerform w.ledger call.op = some (answer, l'))
    (fits : ledgerLength sgx l' ≤ 65535) :
    ∃ w', EcallStep sgx w (call, answerReturned answer) w' ∧ w'.ledger = l' ∧ Synced sgx w' := by
  by_cases opening : call = .initManager
  · subst opening
    obtain ⟨returned, w', step⟩ : ∃ returned w', EcallStep sgx w (.initManager, returned) w' :=
      synced_returns sgx doc synced (by simp)
    have silent : StoresWithin sgx 65535 ⟨w, (.initManager, returned), w'⟩ := by
      intro stores
      exact absurd (initManager_stores sgx step) (Nat.ne_of_gt stores)
    obtain ⟨synced', answer', rfl, refined⟩ :=
      synced_step sgx doc reliable synced separated step silent
    cases performed.symm.trans (refined.performed (by simp [Ecall.op]))
    exact ⟨w', step, rfl, synced'⟩
  · obtain ⟨manager, content, wf, file, _⟩ := id synced.1
    obtain ⟨w', step, rfl⟩ := ecall_performs sgx wf (by simp [file]) opening performed
    have within : StoresWithin sgx 65535 ⟨w, (call, answerReturned answer), w'⟩ := by
      intro _
      rwa [ledgerLength_eq] at fits
    exact ⟨w', step, rfl, (synced_step sgx doc reliable synced separated step within).1⟩

theorem synced_unanswered (synced : Synced sgx w)
    (nothing : ledgerPerform w.ledger call.op = none) :
    (call.exec sgx).run w = .error .nullPointer := by
  obtain ⟨manager, _, wf, _, _⟩ := synced.1
  exact ecall_unanswered sgx wf nothing

/-- What the untrusted side is told along a trace, and the ledger at its end. -/
def shownTrace (traced : List Move × World) : List Returned × Ledger Bytes Bytes :=
  (traced.1.map fun move => move.label.2, traced.2.ledger)

/-- What the machine makes of the same calls: no answer is a NULL dereference. -/
def ledgerTrace (l : Ledger Bytes Bytes) (calls : List Ecall) :
    Except Fault (List Returned × Ledger Bytes Bytes) :=
  (ledgerPerforms l (calls.map Ecall.op)).elim (.error .nullPointer) fun performed =>
    .ok (performed.1.map answerReturned, performed.2)

theorem shownTrace_step {returned : Returned} (step : EcallStep sgx w (call, returned) w') :
    (ecallTrace sgx (call :: calls) w).map shownTrace =
      ((ecallTrace sgx calls w').map shownTrace).map fun rest => (returned :: rest.1, rest.2) := by
  rw [ecallTrace_step sgx step]
  cases ecallTrace sgx calls w' <;> rfl

theorem ledgerTrace_step {l : Ledger Bytes Bytes}
    (performed : ledgerPerform l call.op = some (answer, l')) :
    ledgerTrace l (call :: calls) =
      (ledgerTrace l' calls).map fun rest => (answerReturned answer :: rest.1, rest.2) := by
  rw [ledgerTrace, List.map_cons, ledgerPerforms_cons, performed, Option.bind_some, ledgerTrace]
  cases ledgerPerforms l' (calls.map Ecall.op) <;> rfl

theorem ledgerTrace_unanswered {l : Ledger Bytes Bytes}
    (nothing : ledgerPerform l call.op = none) :
    ledgerTrace l (call :: calls) = .error .nullPointer := by
  rw [ledgerTrace, List.map_cons, ledgerPerforms_cons, nothing]
  rfl

/-- From a synced state, a trace is what the machine makes of its calls. -/
theorem synced_trace (doc : sgx.Documented) (reliable : sgx.Reliable) (synced : Synced sgx w)
    (separated : ∀ call ∈ calls, call.CommaFree) (fits : FitsAlong sgx w.ledger calls) :
    (ecallTrace sgx calls w).map shownTrace = ledgerTrace w.ledger calls := by
  induction calls generalizing w with
  | nil => rfl
  | cons call calls ih =>
      cases performed : ledgerPerform w.ledger call.op with
      | none =>
          rw [ecallTrace_error sgx (synced_unanswered sgx synced performed),
            ledgerTrace_unanswered performed]
          rfl
      | some first =>
          obtain ⟨small, later⟩ := fits first performed
          obtain ⟨w', step, same, synced'⟩ := synced_performs sgx doc reliable synced
            (separated call (List.mem_cons_self ..)) performed small
          rw [← same] at later
          rw [shownTrace_step sgx step, ledgerTrace_step performed, ← same, ih synced'
            (fun c member => separated c (List.mem_cons_of_mem call member)) later]

theorem synced_traced (doc : sgx.Documented) (reliable : sgx.Reliable) (synced : Synced sgx w)
    (separated : ∀ call ∈ calls, call.CommaFree) (fits : FitsAlong sgx w.ledger calls)
    {history : List Move} (traced : ecallTrace sgx calls w = .ok (history, w')) :
    Synced sgx w' := by
  induction calls generalizing w history with
  | nil =>
      cases traced
      exact synced
  | cons call calls ih =>
      cases performed : ledgerPerform w.ledger call.op with
      | none =>
          rw [ecallTrace_error sgx (synced_unanswered sgx synced performed)] at traced
          cases traced
      | some first =>
          obtain ⟨small, later⟩ := fits first performed
          obtain ⟨w1, step, same, synced1⟩ := synced_performs sgx doc reliable synced
            (separated call (List.mem_cons_self ..)) performed small
          rw [ecallTrace_step sgx step] at traced
          obtain ⟨rest, behind, final⟩ := map_ok traced
          cases final
          exact ih synced1 (fun c member => separated c (List.mem_cons_of_mem call member))
            (same ▸ later) behind

/-- The file holds the entries of the ledger, in records that no separator cuts. -/
def Filed (file : Option Bytes) (l : Ledger Bytes Bytes) : Prop :=
  ∃ content accountList, file = some content ∧ FileHolds sgx content accountList ∧
    (∀ account ∈ accountList, SeccapBank.CommaFree account) ∧
      accountList.map Account.entry = l.entries

theorem filed_empty : Filed sgx (some []) .blank :=
  ⟨[], [], rfl, .inl ⟨rfl, rfl⟩, fun _ member => absurd member List.not_mem_nil, rfl⟩

theorem Synced.filed (synced : Synced sgx w) : Filed sgx w.accountFile w.ledger := by
  obtain ⟨⟨manager, content, _, file, holds⟩, clean⟩ := synced
  exact ⟨content, w.accounts, file, holds, clean, rfl⟩

/-- The initialisation, of whatever process, opens the ledger that the file holds. -/
theorem opens_filed (doc : sgx.Documented) {l : Ledger Bytes Bytes}
    (filed : Filed sgx w.accountFile l) :
    ∃ w', EcallStep sgx w (.initManager, .result .processSuccess) w' ∧
      w'.ledger = ⟨l.entries, none⟩ ∧ Synced sgx w' := by
  obtain ⟨content, accountList, file, holds, clean, entries⟩ := filed
  obtain ⟨lines, step⟩ := holds.restart sgx doc clean file
  have wf : WellFormed ((w.install accountList).print lines) (installedManager w accountList) :=
    (install_wellFormed w accountList).of_frame rfl rfl
  have accounts : ((w.install accountList).print lines).accounts = accountList :=
    install_accounts w accountList
  refine ⟨_, step, ?_, ⟨_, content, wf, file, ?_⟩, ?_⟩
  · rw [World.ledger, accounts, entries, currentIndex_none wf.present rfl]
  · rwa [accounts]
  · rwa [accounts]

/-- The enclave computes the ledger machine: started on an empty file, what its ecalls
return, restarts included, and the ledger that they leave are those of the machine on a
new book, and the only fault is the missing answer of the machine. -/
theorem enclave_is_ledger (doc : sgx.Documented) (reliable : sgx.Reliable)
    (empty : w.accountFile = some []) (separated : ∀ call ∈ calls, call.CommaFree)
    (fits : FitsAlong sgx .blank calls) :
    (ecallTrace sgx (.initManager :: calls) w).map shownTrace =
      ledgerTrace .blank (.initManager :: calls) := by
  obtain ⟨start, step, blank, synced⟩ : ∃ start,
      EcallStep sgx w (.initManager, .result .processSuccess) start ∧ start.ledger = .blank ∧
        Synced sgx start := opens_filed sgx doc (empty ▸ filed_empty sgx)
  have reopened : ledgerPerform .blank Ecall.initManager.op = some (.granted, .blank) := rfl
  have behind := synced_trace sgx doc reliable synced separated (blank ▸ fits)
  rw [shownTrace_step sgx step, ledgerTrace_step reopened, behind, blank]
  rfl

theorem enclave_is_ledger_session :
    (ecallTrace clearSealing (.initManager :: ordinaryCalls) (.boot [])).map shownTrace =
      ledgerTrace .blank (.initManager :: ordinaryCalls) :=
  enclave_is_ledger clearSealing clearSealing_documented clearSealing_reliable rfl (by decide)
    (by decide +kernel)

end Synced

section Restarts

variable {calls' : List Ecall}

/-- The calls of a history with their results, without the initialisations. -/
def session (history : List Move) : List (Ecall × Returned) :=
  (history.map fun move => move.label).filter fun label => label.1 ≠ .initManager

/-- The second list is the first with restarts added directly in front of logins,
registrations and other restarts. -/
abbrev Restarted : List Ecall → List Ecall → Prop := Reopened Ecall.op

theorem op_reopens (call : Ecall) : call.op.reopens = decide (call = .initManager) := by
  cases call <;> rfl

theorem ledgerLength_grows {l : Ledger Bytes Bytes} (grown : l.identities <+: l'.identities) :
    ledgerLength sgx l ≤ ledgerLength sgx l' := by
  obtain ⟨rest, whole⟩ := grown
  rw [ledgerLength, ledgerLength, ← whole, List.map_append, List.sum_append]
  omega

theorem fitsAlong_restarted (restarted : Restarted calls calls') {l : Ledger Bytes Bytes}
    (small : ledgerLength sgx l ≤ 65535) (fits : FitsAlong sgx l calls) :
    FitsAlong sgx l calls' := by
  induction restarted generalizing l with
  | nil => exact fits
  | keep call rest ih =>
      intro first performed
      obtain ⟨small', later⟩ := fits first performed
      exact ⟨small', ih small' later⟩
  | @reopen calls calls' next again resets reopens rest ih =>
      intro first performed
      have same : ledgerPerform l again.op = some (.granted, ⟨l.entries, none⟩) := by
        rw [reopens]
        rfl
      cases performed.symm.trans same
      refine ⟨small, ih small fun first' performed' => ?_⟩
      exact fits first' ((perform_reset resets l).symm.trans performed')

/-- The session of a trace is the dialogue of the machine. -/
theorem session_of_shown {history : List Move} {l : Ledger Bytes Bytes} {answers : List Answer}
    (traced : ecallTrace sgx calls w = .ok (history, w'))
    (shown : shownTrace (history, w') = (answers.map answerReturned, l)) :
    session history =
      (dialogue Ecall.op calls answers).map fun said => (said.1, answerReturned said.2) := by
  obtain ⟨_, made⟩ := ecallTrace_run sgx traced
  obtain ⟨returned, _⟩ := Prod.mk.inj shown
  have labels : history.map (fun move => move.label) = calls.zip (answers.map answerReturned) := by
    rw [← made, ← returned]
    simp [List.zip_map']
  rw [session, labels, dialogue, List.zip_map_right, List.filter_map]
  simp [op_reopens, Function.comp_def]

/-- What there is to see of a trace but for its restarts. -/
def seenTrace (traced : List Move × World) : List (Ecall × Returned) × Ledger Bytes Bytes :=
  (session traced.1, traced.2.ledger)

theorem synced_seen (doc : sgx.Documented) (reliable : sgx.Reliable) (synced : Synced sgx w)
    (separated : ∀ call ∈ calls, call.CommaFree) (fits : FitsAlong sgx w.ledger calls) :
    (ecallTrace sgx calls w).map seenTrace =
      ((ledgerPerforms w.ledger (calls.map Ecall.op)).map fun p =>
        (dialogue Ecall.op calls p.1, p.2)).elim (.error .nullPointer) fun said =>
          .ok (said.1.map fun one => (one.1, answerReturned one.2), said.2) := by
  have shown := synced_trace sgx doc reliable synced separated fits
  rw [ledgerTrace] at shown
  cases performed : ledgerPerforms w.ledger (calls.map Ecall.op) with
  | none =>
      rw [performed] at shown
      cases traced : ecallTrace sgx calls w with
      | error fault =>
          rw [traced] at shown
          cases shown
          rfl
      | ok t =>
          rw [traced] at shown
          cases shown
  | some p =>
      rw [performed] at shown
      obtain ⟨⟨history, w'⟩, traced, same⟩ := map_ok shown
      have said := session_of_shown sgx traced same
      rw [traced]
      obtain ⟨_, final⟩ := Prod.mk.inj same
      simp only [Except.map, seenTrace, said, Option.map_some, Option.elim_some, final]

theorem synced_small (doc : sgx.Documented) (synced : Synced sgx w) :
    ledgerLength sgx w.ledger ≤ 65535 := by
  obtain ⟨⟨_, content, _, _, holds⟩, _⟩ := synced
  have header := doc.header_bound
  rw [ledgerLength_eq]
  rcases holds with ⟨none, _⟩ | ⟨_, fits, _⟩
  · rw [none]
    have noRecord : sealedLength sgx .new [] = 0 + 0 + sgx.headerSize := rfl
    omega
  · exact fits

theorem separated_restarted (restarted : Restarted calls calls')
    (separated : ∀ call ∈ calls, call.CommaFree) : ∀ call ∈ calls', call.CommaFree := by
  induction restarted with
  | nil => exact separated
  | keep call rest ih =>
      obtain ⟨head, tail⟩ := List.forall_mem_cons.mp separated
      exact List.forall_mem_cons.mpr ⟨head, ih tail⟩
  | @reopen calls calls' next again _ reopens rest ih =>
      refine List.forall_mem_cons.mpr ⟨?_, ih separated⟩
      cases again with
      | initManager => trivial
      | _ => cases reopens

/-- Restarts between sessions are not seen: from a synced state, separated calls whose lists
fit, with any restarts added directly in front of logins and registrations, fault alike, or
return alike and leave the same accounts and session. -/
theorem restarts_unseen (doc : sgx.Documented) (reliable : sgx.Reliable) (synced : Synced sgx w)
    (restarted : Restarted calls calls') (separated : ∀ call ∈ calls, call.CommaFree)
    (fits : FitsAlong sgx w.ledger calls) :
    (ecallTrace sgx calls' w).map seenTrace = (ecallTrace sgx calls w).map seenTrace := by
  have fits' := fitsAlong_restarted sgx restarted (synced_small sgx doc synced) fits
  have separated' := separated_restarted restarted separated
  rw [synced_seen sgx doc reliable synced separated' fits',
    synced_seen sgx doc reliable synced separated fits, restarted.performs w.ledger]

theorem restarts_unseen_session :
    (ecallTrace clearSealing ordinaryCalls emptyBank).map seenTrace =
      (ecallTrace clearSealing (ordinaryCalls.filter (· ≠ .initManager)) emptyBank).map
        seenTrace := by
  have synced := (synced_opening clearSealing rfl (emptyBank_opening clearSealing)).1
  refine restarts_unseen clearSealing clearSealing_documented clearSealing_reliable synced ?_
    (by decide) (by decide +kernel)
  exact .keep _ (.keep _ (.reopen trivial rfl (.keep _ .nil)))

end Restarts

end SeccapBank
