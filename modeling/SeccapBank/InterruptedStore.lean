import SeccapBank.Durability

set_option autoImplicit false

/- A store that stops after some of its bytes, and the restart behind it. The file is
overwritten in place and no copy of its old content is kept. -/
namespace SeccapBank

open CStrings Buffers Fallible Runs

variable (sgx : Sgx) {w w' crashed : World} {manager : DealManager} {old new : Bytes}

/-- The file after the first `k` bytes of a store. -/
def interrupted (old new : Bytes) (k : Nat) : Bytes := blit old (new.take k)

/-- Initialisation returns and installs this list. -/
def RestoresTo (w : World) (accountList : List Account) : Prop :=
  ∃ answer w', EcallStep sgx w (.initManager, answer) w' ∧ w'.accounts = accountList

/-- A content that sealing did not produce. -/
def Foreign (content : Bytes) : Prop :=
  ∀ call macTxt plain size, sgx.sealData call macTxt plain size ≠ some content

theorem interrupted_zero (old new : Bytes) : interrupted old new 0 = old := by
  rw [interrupted, List.take_zero]
  exact List.nil_append _

theorem interrupted_all {k : Nat} (room : old.length ≤ new.length) (all : new.length ≤ k) :
    interrupted old new k = new := by
  rw [interrupted, List.take_of_length_le all, blit_length_of_le room]

theorem foreign_iff (doc : sgx.Documented) (authentic : sgx.Authentic) (content : Bytes) :
    Foreign sgx content ↔ sgx.unsealData content = none := by
  constructor
  · intro foreign
    cases opened : sgx.unsealData content with
    | none => rfl
    | some texts =>
        obtain ⟨call, macTxt, plain, size, sealed⟩ := authentic content texts opened
        exact absurd sealed (foreign call macTxt plain size)
  · intro rejected call macTxt plain size sealed
    rw [doc.unseal_seal _ _ _ _ _ sealed] at rejected
    cases rejected

/-- Initialisation does not return on a nonempty content that is rejected: the zeroed
buffer has no separator, and the scan leaves it. -/
theorem restores_nothing {content : Bytes} (file : crashed.accountFile = some content)
    (nonempty : content ≠ []) (rejected : sgx.unsealData content = none)
    (accountList : List Account) : ¬ RestoresTo sgx crashed accountList := by
  rintro ⟨answer, w', step, _⟩
  obtain ⟨_, inner, _⟩ := run_map_ok.mp step
  obtain ⟨_, content', loaded, _, file', loads, _⟩ := initManager_cases sgx inner
  obtain rfl := Option.some.inj (file.symm.trans file')
  rcases loads with ⟨empty, _⟩ | ⟨_, data, size, _, _, unsealed, load⟩
  · exact nonempty empty
  · have clean : comma ∉ data := by
      rw [unsealing_rejected sgx rejected unsealed]
      intro member
      exact absurd (mem_calloc member) (by decide)
    rw [loadAccountList_clean clean] at load
    cases load

/-- A held content brings back its list, in whatever state the process starts. -/
theorem restores_held (doc : sgx.Documented) {content : Bytes} {accountList : List Account}
    (holds : FileHolds sgx content accountList) (clean : ∀ account ∈ accountList, CommaFree account)
    (file : crashed.accountFile = some content) : RestoresTo sgx crashed accountList := by
  obtain ⟨lines, restarted⟩ := holds.restart sgx doc clean file
  exact ⟨_, _, restarted, install_accounts crashed accountList⟩

theorem ecall_file_grows (wf : WellFormed w manager) {label : Ecall × Returned}
    (step : EcallStep sgx w label w') (oldFile : w.accountFile = some old)
    (newFile : w'.accountFile = some new) : old.length ≤ new.length := by
  obtain ⟨call, returned⟩ := label
  by_cases opening : call = .initManager
  · subst opening
    obtain ⟨_, inner, _⟩ := run_map_ok.mp step
    obtain ⟨_, content, loaded, _, file, _, rfl⟩ := initManager_cases sgx inner
    have same : some old = some new := oldFile.symm.trans newFile
    cases same
    exact Nat.le_refl _
  · rcases ecall_stores sgx wf opening step with ⟨_, unchanged, _⟩ |
      ⟨middle, manager', before, lines, _, _, _, file, _, rfl⟩
    · have same : some old = some new := oldFile.symm.trans (unchanged.symm.trans newFile)
      cases same
      exact Nat.le_refl _
    · obtain rfl := Option.some.inj (file.symm.trans oldFile)
      rw [World.print_accountFile, store_accountFile] at newFile
      have length := congrArg List.length (Option.some.inj newFile)
      rw [blit_length] at length
      omega

/-- A store that stopped before its first byte leaves the old list, one that wrote
all of them the new list, and so does every `k` whose content is one of the two. From
a content that sealing did not produce no list is restored. -/
theorem interrupted_store (doc : sgx.Documented) (reliable : sgx.Reliable)
    (authentic : sgx.Authentic) (synced : Synced sgx w) {label : Ecall × Returned}
    (separated : label.1.CommaFree) (step : EcallStep sgx w label w')
    (fits : StoresWithin sgx 65535 ⟨w, label, w'⟩) (oldFile : w.accountFile = some old)
    (newFile : w'.accountFile = some new) (k : Nat)
    (file : crashed.accountFile = some (interrupted old new k)) :
    (k = 0 ∨ interrupted old new k = old → RestoresTo sgx crashed w.accounts) ∧
      (new.length ≤ k ∨ interrupted old new k = new → RestoresTo sgx crashed w'.accounts) ∧
        (interrupted old new k ≠ [] ∧ Foreign sgx (interrupted old new k) →
          ∀ accountList, ¬ RestoresTo sgx crashed accountList) := by
  obtain ⟨⟨manager, content, wf, held, holds⟩, clean⟩ := id synced
  obtain ⟨⟨⟨manager', content', wf', held', holds'⟩, clean'⟩, _⟩ :=
    synced_step sgx doc reliable synced separated step fits
  obtain rfl := Option.some.inj (held.symm.trans oldFile)
  obtain rfl := Option.some.inj (held'.symm.trans newFile)
  have room := ecall_file_grows sgx wf step oldFile newFile
  refine ⟨fun before => ?_, fun after => ?_, fun foreign => ?_⟩
  · have whole : interrupted content content' k = content := by
      rcases before with rfl | whole
      · exact interrupted_zero content content'
      · exact whole
    rw [whole] at file
    exact restores_held sgx doc holds clean file
  · have whole : interrupted content content' k = content' := by
      rcases after with all | whole
      · exact interrupted_all room all
      · exact whole
    rw [whole] at file
    exact restores_held sgx doc holds' clean' file
  · have rejected := (foreign_iff sgx doc authentic _).mp foreign.2
    exact restores_nothing sgx file foreign.1 rejected

theorem savedBank_synced : Synced clearSealing savedBank := by
  have sealed : clearSealing.sealData 0 (cstr SealingUnsealing.new.addMacTxt)
      (marshalled [savedAccount]) 573 = some (clearFile [savedAccount]) := by
    decide +kernel
  have wf : WellFormed savedBank
      (installedManager (.boot (clearFile [savedAccount])) [savedAccount]) :=
    (install_wellFormed _ _).of_frame rfl rfl
  have accounts : savedBank.accounts = [savedAccount] := install_accounts _ _
  refine ⟨⟨_, _, wf, rfl, .inr ?_⟩, ?_⟩
  · rw [accounts]
    exact ⟨by decide, by decide +kernel, 0, 573, sealed⟩
  · rw [accounts]
    decide

/-- A second registration, and its store stopped behind the header of the new blob. -/
def secondCall : Ecall := .newAccount ⟨ascii "b", by decide⟩ ⟨ascii "q", by decide⟩

theorem secondCall_torn : ∃ new w',
    EcallStep clearSealing savedBank (secondCall, .result .processSuccess) w' ∧
      w'.accountFile = some new ∧
        sealedLength clearSealing .new w'.accounts ≤ 65535 ∧
          interrupted (clearFile [savedAccount]) new 560 ≠ [] ∧
            clearSealing.unsealData (interrupted (clearFile [savedAccount]) new 560) = none := by
  have evaluated : ((secondCall.exec clearSealing).run savedBank).map (fun p =>
      (p.1, p.2.accountFile.map fun new => decide (
        sealedLength clearSealing .new p.2.accounts ≤ 65535 ∧
          interrupted (clearFile [savedAccount]) new 560 ≠ [] ∧
            clearSealing.unsealData (interrupted (clearFile [savedAccount]) new 560) = none))) =
      .ok (.result .processSuccess, some true) := by
    decide +kernel
  obtain ⟨⟨returned, w'⟩, step, facts⟩ := map_ok evaluated
  obtain ⟨rfl, facts⟩ := Prod.mk.inj facts
  obtain ⟨new, file, checked⟩ := Option.map_eq_some_iff.mp facts
  exact ⟨new, w', step, file, of_decide_eq_true checked⟩

theorem interrupted_store_torn : ∃ old new w',
    EcallStep clearSealing savedBank (secondCall, .result .processSuccess) w' ∧
      savedBank.accountFile = some old ∧ w'.accountFile = some new ∧
        RestoresTo clearSealing (.boot (interrupted old new 0)) savedBank.accounts ∧
          RestoresTo clearSealing (.boot (interrupted old new new.length)) w'.accounts ∧
            ∀ accountList,
              ¬ RestoresTo clearSealing (.boot (interrupted old new 560)) accountList := by
  obtain ⟨new, w', step, file, fits, nonempty, rejected⟩ := secondCall_torn
  have foreign :=
    (foreign_iff clearSealing clearSealing_documented clearSealing_authentic _).mpr rejected
  have stopped (k : Nat) := interrupted_store clearSealing clearSealing_documented
    clearSealing_reliable clearSealing_authentic savedBank_synced
    (show Ecall.CommaFree secondCall from ⟨by decide, by decide⟩) step (fun _ => fits) rfl file k
    (show (World.boot (interrupted (clearFile [savedAccount]) new k)).accountFile = _ from rfl)
  exact ⟨_, new, w', step, rfl, file, (stopped 0).1 (.inl rfl),
    (stopped new.length).2.1 (.inl (Nat.le_refl _)), (stopped 560).2.2 ⟨nonempty, foreign⟩⟩

/-- A registration that was interrupted behind the header loses the account that was
there before. -/
theorem torn_store_loses : ∃ old new w', clearSealing.Authentic ∧ Synced clearSealing savedBank ∧
    EcallStep clearSealing savedBank (secondCall, .result .processSuccess) w' ∧
      savedBank.accountFile = some old ∧ w'.accountFile = some new ∧
        ¬ (RestoresTo clearSealing (.boot (interrupted old new 560)) savedBank.accounts ∨
          RestoresTo clearSealing (.boot (interrupted old new 560)) w'.accounts) := by
  obtain ⟨new, w', step, file, _, nonempty, rejected⟩ := secondCall_torn
  have nothing := restores_nothing clearSealing
    (show (World.boot (interrupted (clearFile [savedAccount]) new 560)).accountFile = _ from rfl)
    nonempty rejected
  refine ⟨_, new, w', clearSealing_authentic, savedBank_synced, step, rfl, file, ?_⟩
  rintro (old | new)
  · exact nothing _ old
  · exact nothing _ new

end SeccapBank
