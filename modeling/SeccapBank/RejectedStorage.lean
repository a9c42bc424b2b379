import SeccapBank.EnclaveInit

set_option autoImplicit false

/- The initialisation on a file that does not unseal. The failure is printed and then
forgotten, so that the record parser runs over the zeros of the allocation. -/
namespace SeccapBank

open CStrings Buffers Fallible

variable (sgx : Sgx) {w : World} {content : Bytes}

/-- `AccountListSetting` returns with no account: it has stayed inside its buffers, and
the record parser, which never ends without an account, has not run. -/
def LoadsNothing (w : World) : Prop :=
  ∃ w', (accountListSetting sgx).run w = .ok ((), w') ∧ w'.accounts = []

/-- Zeros pass the assertion on the empty additional text only as its NUL. -/
theorem assertAddMacTxt_zeros (macTxtLen : Nat) (data : Bytes) (dataLen : Nat) (w : World) :
    (assertAddMacTxt .new ⟨calloc macTxtLen, macTxtLen, data, dataLen⟩).run w =
      if 1 < macTxtLen then .error .outOfBounds else .ok ((), w) := by
  have expected : cstr SealingUnsealing.new.addMacTxt ++ [0] = calloc 1 := by decide
  rw [assertAddMacTxt, expected, calloc_length]
  by_cases beyond : 1 < macTxtLen
  · rw [if_pos beyond, if_pos beyond]
    rfl
  · have same : (calloc macTxtLen).take macTxtLen = (calloc 1).take macTxtLen := by
      simp only [calloc, List.take_replicate]
      congr 1
      omega
    rw [if_neg beyond, if_neg beyond, if_neg (not_not.mpr same)]
    rfl

theorem unsealing_run_rejected (rejected : sgx.unsealData content = none) (w : World) :
    (unsealing sgx .new content).run w = .error .outOfBounds ∨
      ∃ lines size, (unsealing sgx .new content).run w =
        .ok ((calloc (sgx.getEncryptTxtLen content).toNat, size), w.print lines) := by
  by_cases short : content.length < sgx.headerSize
  · refine .inl (run_bind_of_error ?_ _)
    simp [decrypt, short]
  · obtain ⟨line, decrypted⟩ : ∃ line, (decrypt sgx content).run w =
        .ok (⟨calloc (sgx.getAddMacTxtLen content).toNat, (sgx.getAddMacTxtLen content).toNat,
          calloc (sgx.getEncryptTxtLen content).toNat, (sgx.getEncryptTxtLen content).toNat⟩,
          w.print [line]) := by
      simp only [decrypt, short, ↓reduceIte, rejected]
      exact ⟨_, rfl⟩
    have checked := assertAddMacTxt_zeros (sgx.getAddMacTxtLen content).toNat
      (calloc (sgx.getEncryptTxtLen content).toNat) (sgx.getEncryptTxtLen content).toNat
      (w.print [line])
    rw [unsealing, run_bind_of_ok decrypted]
    by_cases beyond : 1 < (sgx.getAddMacTxtLen content).toNat
    · rw [if_pos beyond] at checked
      exact .inl (run_bind_of_error checked _)
    · rw [if_neg beyond] at checked
      rw [run_bind_of_ok checked]
      exact .inr ⟨[line], _, rfl⟩

theorem accountListSetting_rejected (fresh : w.dealManager = some .new)
    (file : w.accountFile = some content) (nonempty : content ≠ [])
    (rejected : sgx.unsealData content = none) :
    (accountListSetting sgx).run w = .error .outOfBounds := by
  rw [accountListSetting_nonempty sgx fresh file nonempty]
  show ((unsealing sgx .new content >>= _) : Bank Unit).run w = _
  rcases unsealing_run_rejected sgx rejected w with left | ⟨lines, size, zeros⟩
  · exact run_bind_of_error left _
  · have clean : comma ∉ calloc (sgx.getEncryptTxtLen content).toNat := by
      intro member
      exact absurd (mem_calloc member) (by decide)
    rw [run_bind_of_ok zeros]
    exact run_bind_of_error (run_lift_error.mpr (loadAccountList_clean clean _)) _

/-- Of all contents that `sgx_unseal_data` does not accept, only the empty one is taken as
no accounts; behind any other the parser runs, or the header is already too short. -/
theorem loads_nothing_iff (fresh : w.dealManager = some .new) (file : w.accountFile = some content)
    (rejected : sgx.unsealData content = none) : LoadsNothing sgx w ↔ content = [] := by
  constructor
  · rintro ⟨w', returned, _⟩
    by_contra nonempty
    rw [accountListSetting_rejected sgx fresh file nonempty rejected] at returned
    cases returned
  · rintro rfl
    refine ⟨w, accountListSetting_empty sgx file, ?_⟩
    rw [accounts_eq fresh]
    rfl

/-- A process that has just made its manager and reads this file. -/
def freshOn (content : Bytes) : World := { World.boot content with dealManager := some .new }

theorem loads_nothing_empty : LoadsNothing clearSealing (freshOn []) :=
  (loads_nothing_iff clearSealing rfl rfl (by decide +kernel)).mpr rfl

/-- The file of one account, with the lowest byte of its balance raised from 100 to 200. -/
def tamperedFile : Bytes := (clearFile [savedAccount]).set 564 200

/-- A tampered payload is rejected, and then the parser scans zeros for a comma. -/
theorem tampered_file_parsed : clearSealing.unsealData tamperedFile = none ∧
    (accountListSetting clearSealing).run (freshOn tamperedFile) = .error .outOfBounds ∧
      ¬ LoadsNothing clearSealing (freshOn tamperedFile) := by
  have rejected : clearSealing.unsealData tamperedFile = none := by decide +kernel
  have left : (accountListSetting clearSealing).run (freshOn tamperedFile) = .error .outOfBounds :=
    accountListSetting_rejected clearSealing rfl rfl (by decide +kernel) rejected
  refine ⟨rejected, left, ?_⟩
  rintro ⟨w', returned, _⟩
  rw [left] at returned
  cases returned

end SeccapBank
