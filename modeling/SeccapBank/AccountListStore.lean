import SeccapBank.EnclaveInit

set_option autoImplicit false

/- What a store hands to the untrusted side, through the narrowing of its sizes. -/
namespace SeccapBank

open CStrings Buffers Fallible

variable (sgx : Sgx) {w w' : World} {manager : DealManager} {old : Bytes}

/-- The size of a blob that holds the whole list. -/
def sealedLength (s : SealingUnsealing) (accountList : List Account) : Nat :=
  (cstr s.addMacTxt).length + (marshalled accountList).length + sgx.headerSize

/-- The whole list fits in a blob of at most 16 bits of size, and `sgx_seal_data`
does not fail on it. -/
def Sealable (s : SealingUnsealing) (call : Nat) (accountList : List Account) : Prop :=
  sealedLength sgx s accountList ≤ 65535 ∧
    ∃ blob, sgx.sealData call (cstr s.addMacTxt) (marshalled accountList)
      (UInt32.ofNat (sealedLength sgx s accountList)) = some blob

theorem sealedDataSize_toNat (doc : sgx.Documented) {s : SealingUnsealing}
    {accountList : List Account} (mac : (cstr s.addMacTxt).length < 2 ^ 16)
    (plain : (marshalled accountList).length < 2 ^ 16) :
    (sealedDataSize sgx s (UInt16.ofNat (marshalled accountList).length).toUInt32).toNat =
      sealedLength sgx s accountList := by
  have header := doc.header_bound
  have macLength : (UInt32.ofNat (cstr s.addMacTxt).length).toNat = (cstr s.addMacTxt).length := by
    apply UInt32.toNat_ofNat_of_lt'
    show _ < 2 ^ 32
    omega
  have plainLength : (UInt16.ofNat (marshalled accountList).length).toUInt32.toNat =
      (marshalled accountList).length := by
    rw [UInt16.toNat_toUInt32, UInt16.toNat_ofNat_of_lt' plain]
  have total := doc.calc_size (UInt32.ofNat (cstr s.addMacTxt).length)
    (UInt16.ofNat (marshalled accountList).length).toUInt32 (by omega)
  rw [macLength, plainLength] at total
  exact total

/-- A list whose sealed size fits passes through all three size conversions unchanged. -/
theorem handedSize_toNat (doc : sgx.Documented) {s : SealingUnsealing} {accountList : List Account}
    (fits : sealedLength sgx s accountList ≤ 65535) :
    (handedSize sgx s accountList).toNat = sealedLength sgx s accountList := by
  have sum : (cstr s.addMacTxt).length + (marshalled accountList).length + sgx.headerSize ≤ 65535 :=
    fits
  have mac : (cstr s.addMacTxt).length < 2 ^ 16 := by omega
  have plain : (marshalled accountList).length < 2 ^ 16 := by omega
  have computed := sealedDataSize_toNat sgx doc mac plain
  rw [handedSize, UInt32.toNat_toUInt16, computed, Nat.mod_eq_of_lt (by omega)]

theorem handed_sealable (doc : sgx.Documented) {s : SealingUnsealing} {call : Nat}
    {accountList : List Account} (sealable : Sealable sgx s call accountList) :
    ∃ blob size, sgx.sealData call (cstr s.addMacTxt) (marshalled accountList) size = some blob ∧
      (handedBuffer sgx s call accountList).take (handedSize sgx s accountList).toNat = blob ∧
      blob.length = sealedLength sgx s accountList := by
  obtain ⟨fits, blob, sealed⟩ := sealable
  have size := handedSize_toNat sgx doc fits
  have plain : (UInt16.ofNat (marshalled accountList).length).toNat =
      (marshalled accountList).length := by
    apply UInt16.toNat_ofNat_of_lt'
    show _ < 2 ^ 16
    unfold sealedLength at fits
    omega
  have same : (handedSize sgx s accountList).toUInt32 =
      UInt32.ofNat (sealedLength sgx s accountList) := by
    rw [← UInt32.toNat_inj, UInt16.toNat_toUInt32, size, UInt32.toNat_ofNat_of_lt']
    show _ < 2 ^ 32
    omega
  have buffer : handedBuffer sgx s call accountList = blob := by
    rw [handedBuffer_eq, plain, List.take_length, same, sealed]
  obtain ⟨total, length⟩ := doc.seal_size _ _ _ _ _ sealed
  have whole : blob.length = sealedLength sgx s accountList := by
    rw [length, total]
    rfl
  refine ⟨blob, _, sealed, ?_, whole⟩
  rw [buffer, size, ← whole, List.take_length]

/-- What a store promises: success only with the complete list in a blob that
unseals to it, and nothing written and no success where the list cannot be sealed. -/
structure AllOrNothing (w : World) (manager : DealManager) : Prop where
  complete : ∀ w', (accountListStoreStorage sgx).run w = .ok (.processSuccess, w') →
    ∃ data size w1 macTxt, (sealAccountList sgx).run w = .ok ((data, size), w1) ∧
      (ocallAccountListStore data size).run w1 = .ok ((), w') ∧
        sgx.unsealData (data.take size) = some (macTxt, marshalled (w.listed manager.accountList))
  refuses : ¬ Sealable sgx manager.sealingUnsealing w.sealCalls (w.listed manager.accountList) →
    ∀ result w', (accountListStoreStorage sgx).run w = .ok (result, w') →
      w'.accountFile = w.accountFile ∧ result ≠ .processSuccess

theorem sealable_of_allOrNothing (present : w.dealManager = some manager)
    (valid : w.Valid manager.accountList) (file : w.accountFile = some old)
    (promise : AllOrNothing sgx w manager) :
    Sealable sgx manager.sealingUnsealing w.sealCalls (w.listed manager.accountList) := by
  by_contra refused
  obtain ⟨lines, stored⟩ := accountListStoreStorage_run sgx present valid file
  exact (promise.refuses refused _ _ stored).2 rfl

/-- A store is all or nothing exactly when the list can be sealed whole. -/
theorem store_all_or_nothing (doc : sgx.Documented) (present : w.dealManager = some manager)
    (valid : w.Valid manager.accountList) (file : w.accountFile = some old) :
    AllOrNothing sgx w manager ↔
      Sealable sgx manager.sealingUnsealing w.sealCalls (w.listed manager.accountList) := by
  constructor
  · exact sealable_of_allOrNothing sgx present valid file
  · intro sealable
    refine ⟨fun w' returned => ?_, fun refused => absurd sealable refused⟩
    obtain ⟨blob, size, sealed, handed, _⟩ := handed_sealable sgx doc sealable
    obtain ⟨lines, handing⟩ := sealAccountList_run sgx present valid
    obtain ⟨_, w1, storing, rest⟩ := run_bind_ok.mp
      ((run_bind_of_ok handing _).symm.trans returned)
    cases rest
    refine ⟨_, _, _, cstr manager.sealingUnsealing.addMacTxt, handing, storing, ?_⟩
    rw [handed]
    exact doc.unseal_seal _ _ _ _ _ sealed

theorem saved_store : AllOrNothing clearSealing ((World.boot []).install [savedAccount])
    (installedManager (.boot []) [savedAccount]) := by
  have wf := install_wellFormed (.boot []) [savedAccount]
  refine (store_all_or_nothing clearSealing clearSealing_documented wf.present wf.valid rfl).mpr
    ⟨?_, ?_⟩
  · decide +kernel
  · apply clearSealing_reliable
    · decide
    · decide +kernel

/-- An account whose record and header need 35 bytes more than 16 bits can count. -/
def oversizedAccount : Account := Account.new (List.replicate 65000 97) [] 0

theorem oversized_length : (marshalled [oversizedAccount]).length = 65011 := by
  rw [marshalled_singleton, record_length, oversizedAccount.sized, oversizedAccount,
    Account.new_name, Account.new_password, List.length_replicate]
  rfl

theorem oversized_handedSize : handedSize clearSealing .new [oversizedAccount] = 35 := by
  rw [handedSize, oversized_length]
  decide +kernel

/-- `sgx_seal_data` refuses the small buffer, which is handed over all the same. -/
theorem oversized_handedBuffer (call : Nat) :
    handedBuffer clearSealing .new call [oversizedAccount] = calloc 35 := by
  rw [handedBuffer_eq, oversized_handedSize]
  split
  · rename_i blob sealed
    have total := (clearSealing_documented.seal_size _ _ _ _ _ sealed).1
    rw [List.length_take, oversized_length] at total
    exact absurd total (by decide +kernel)
  · rfl

/-- The store of an oversized account reports success and writes zeros over the file. -/
theorem oversized_store : ∃ w manager w', w.dealManager = some manager ∧
    w.Valid manager.accountList ∧ w.accountFile = some [] ∧
      (accountListStoreStorage clearSealing).run w = .ok (.processSuccess, w') ∧
        w'.accountFile = some (calloc 35) ∧ ¬ AllOrNothing clearSealing w manager := by
  let w := (World.boot []).install [oversizedAccount]
  have wf := install_wellFormed (.boot []) [oversizedAccount]
  obtain ⟨lines, stored⟩ := accountListStoreStorage_run clearSealing wf.present wf.valid rfl
  refine ⟨w, _, _, wf.present, wf.valid, rfl, stored, ?_, ?_⟩
  · rw [World.print_accountFile, store_accountFile, install_listed]
    change some (blit [] ((handedBuffer clearSealing .new 0 [oversizedAccount]).take
      (handedSize clearSealing .new [oversizedAccount]).toNat)) = _
    rw [oversized_handedBuffer, oversized_handedSize]
    decide
  · intro promise
    have sealable := sealable_of_allOrNothing clearSealing wf.present wf.valid rfl promise
    rw [install_listed] at sealable
    have fits : sealedLength clearSealing .new [oversizedAccount] ≤ 65535 := sealable.1
    rw [sealedLength, oversized_length] at fits
    revert fits
    decide +kernel

end SeccapBank
