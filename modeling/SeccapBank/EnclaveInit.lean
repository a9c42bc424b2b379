import SeccapBank.ClearSealing
import SeccapBank.EnclaveSteps

set_option autoImplicit false

/- The initialisation ecall: a fresh manager, filled from the account file. -/
namespace SeccapBank

open CStrings Buffers Fallible Runs

variable (sgx : Sgx) {w w' : World}

/-- The state in which a fresh manager owns these newly allocated accounts. -/
def World.install (w : World) (accountList : List Account) : World :=
  { w with
    heap := w.heap ++ accountList
    dealManager := some { DealManager.new with
      accountList := (List.range accountList.length).map (w.heap.length + ·) } }

/-- The manager of such a state. -/
def installedManager (w : World) (accountList : List Account) : DealManager :=
  { DealManager.new with accountList := (List.range accountList.length).map (w.heap.length + ·) }

/-- The line that ends the initialisation. -/
def initialised : String := "[Server]: サーバー初期設定完了\n"

theorem install_nil (w : World) :
    w.install [] = { w with dealManager := some DealManager.new } := by
  simp [World.install, DealManager.new]

theorem install_valid (w : World) (accountList : List Account) :
    (w.install accountList).Valid ((List.range accountList.length).map (w.heap.length + ·)) := by
  intro ptr member
  obtain ⟨i, inside, rfl⟩ := List.mem_map.mp member
  have bound : i < accountList.length := List.mem_range.mp inside
  change w.heap.length + i < (w.heap ++ accountList).length
  rw [List.length_append]
  exact Nat.add_lt_add_left bound _

theorem install_wellFormed (w : World) (accountList : List Account) :
    WellFormed (w.install accountList) (installedManager w accountList) where
  present := rfl
  sealing := rfl
  valid := install_valid w accountList
  distinct := List.Nodup.map (fun _ _ same => Nat.add_left_cancel same) List.nodup_range
  current := by
    intro ptr current
    cases current

theorem install_accounts (w : World) (accountList : List Account) :
    (w.install accountList).accounts = accountList := by
  rw [accounts_eq (install_wellFormed w accountList).present]
  apply List.ext_getElem?
  intro i
  rw [listed_getElem? (install_wellFormed w accountList).valid]
  by_cases inside : i < accountList.length
  · rw [installedManager, List.getElem?_map, List.getElem?_range inside, Option.map_some,
      Option.bind_some]
    change (w.heap ++ accountList)[w.heap.length + i]? = _
    rw [List.getElem?_append_right (Nat.le_add_right _ _), Nat.add_sub_cancel_left]
  · rw [List.getElem?_eq_none (Nat.le_of_not_lt inside), installedManager, List.getElem?_map,
      List.getElem?_eq_none (by simpa using inside)]
    rfl

theorem install_listed (w : World) (accountList : List Account) :
    (w.install accountList).listed (installedManager w accountList).accountList = accountList := by
  have accounts := install_accounts w accountList
  rwa [accounts_eq (install_wellFormed w accountList).present] at accounts

/-- The list that a fresh manager loads from a file: none from an empty file, and
otherwise what the loading loop makes of the unsealed bytes. -/
def Loads (content : Bytes) (accountList : List Account) : Prop :=
  content = [] ∧ accountList = [] ∨
    content ≠ [] ∧ ∃ (data : Bytes) (size : UInt16) (before after : World),
      (unsealing sgx .new content).run before = .ok ((data, size), after) ∧
        loadAccountList data size.toNat = .ok accountList

theorem unsealing_frame {s : SealingUnsealing} {blob data : Bytes} {size : UInt16}
    (returned : (unsealing sgx s blob).run w = .ok ((data, size), w')) :
    ∃ lines, w' = w.print lines := by
  obtain ⟨unsealed, w1, decrypted, rest⟩ := run_bind_ok.mp returned
  obtain ⟨_, w2, checked, final⟩ := run_bind_ok.mp rest
  cases final
  have same : w' = w1 := by
    unfold assertAddMacTxt at checked
    dsimp only at checked
    split at checked
    · cases checked
    · split at checked
      · cases checked
      · cases checked
        rfl
  rw [same]
  unfold decrypt at decrypted
  split at decrypted
  · cases decrypted
  · dsimp only at decrypted
    split at decrypted
    · cases decrypted
      exact ⟨[], (World.print_nil w).symm⟩
    · cases decrypted
      exact ⟨_, rfl⟩

/-- Initialisation that returns has installed what the file loads, and keeps the file. -/
theorem initManager_cases {result : ProcessResult}
    (returned : (ecallInitManager sgx).run w = .ok (result, w')) :
    result = .processSuccess ∧ ∃ content accountList lines, w.accountFile = some content ∧
      Loads sgx content accountList ∧ w' = (w.install accountList).print lines := by
  let fresh : World := { w with dealManager := some .new }
  rw [ecallInitManager, run_bind_of_ok (setManager_run .new w)] at returned
  obtain ⟨_, w1, setting, rest⟩ := run_bind_ok.mp returned
  rw [run_bind_of_ok (printf_run _ w1)] at rest
  cases rest
  refine ⟨rfl, ?_⟩
  change (accountListSetting sgx).run fresh = _ at setting
  cases file : w.accountFile with
  | none =>
      rw [accountListSetting_missing sgx (show fresh.accountFile = none from file)] at setting
      cases setting
  | some content =>
      have here : fresh.accountFile = some content := file
      by_cases empty : content = []
      · rw [accountListSetting_empty sgx (here.trans (congrArg some empty))] at setting
        cases setting
        exact ⟨content, [], [initialised], rfl, .inl ⟨empty, rfl⟩,
          congrArg (World.print · [initialised]) (install_nil w).symm⟩
      · have present : fresh.dealManager = some .new := rfl
        rw [accountListSetting_nonempty sgx present here empty] at setting
        obtain ⟨⟨data, size⟩, w2, unsealed, loading⟩ := run_bind_ok.mp setting
        obtain ⟨lines, rfl⟩ := unsealing_frame sgx unsealed
        obtain ⟨accountList, w3, loaded, installing⟩ := run_bind_ok.mp loading
        obtain ⟨load, rfl⟩ := run_lift_ok.mp loaded
        rw [run_bind_of_ok (allocAll_run accountList _)] at installing
        cases installing
        refine ⟨content, accountList, lines ++ [initialised], rfl,
          .inr ⟨empty, data, size, _, _, unsealed, load⟩, ?_⟩
        rw [← World.print_print]
        rfl

/-- A file whose content loads is installed by the initialisation. -/
theorem initManager_run {content : Bytes} {accountList : List Account}
    (file : w.accountFile = some content) (loads : ∀ before : World, content ≠ [] →
      ∃ (data : Bytes) (size : UInt16),
        (unsealing sgx .new content).run before = .ok ((data, size), before) ∧
          loadAccountList data size.toNat = .ok accountList)
    (none : content = [] → accountList = []) :
    ∃ lines, (ecallInitManager sgx).run w =
      .ok (.processSuccess, (w.install accountList).print lines) := by
  let fresh : World := { w with dealManager := some .new }
  have here : fresh.accountFile = some content := file
  refine ⟨[initialised], ?_⟩
  rw [ecallInitManager, run_bind_of_ok (setManager_run .new w)]
  have setting : (accountListSetting sgx).run fresh = .ok ((), w.install accountList) := by
    by_cases empty : content = []
    · rw [accountListSetting_empty sgx (here.trans (congrArg some empty)), none empty, install_nil]
    · obtain ⟨data, size, opened, load⟩ := loads fresh empty
      have unsealed : (unsealing sgx DealManager.new.sealingUnsealing content).run fresh =
          .ok ((data, size), fresh) := opened
      have present : fresh.dealManager = some .new := rfl
      rw [accountListSetting_nonempty sgx present here empty, run_bind_of_ok unsealed,
        run_bind_of_ok (run_lift_ok.mpr ⟨load, rfl⟩),
        run_bind_of_ok (allocAll_run accountList fresh)]
      rfl
  rw [run_bind_of_ok setting]
  rfl

/-- The bank that the server has after its first start. -/
def emptyBank : World :=
  { World.boot [] with dealManager := some .new, console := [initialised] }

theorem emptyBank_opening (sgx : Sgx) :
    EcallStep sgx (.boot []) (.initManager, .result .processSuccess) emptyBank := rfl

/-- A file that the clear sealing has written. -/
def clearFile (accountList : List Account) : Bytes :=
  ClearSealing.frame (littleEndian 8 0) [] (marshalled accountList)

def savedAccount : Account := Account.new (ascii "a") (ascii "p") 100

theorem savedName_nulFree : (0 : UInt8) ∉ ascii "a" := by decide

theorem savedPassword_nulFree : (0 : UInt8) ∉ ascii "p" := by decide

/-- The bank that the server has when it starts on the file of one account. -/
def savedBank : World :=
  ((World.boot (clearFile [savedAccount])).install [savedAccount]).print [initialised]

theorem savedBank_opening : EcallStep clearSealing (.boot (clearFile [savedAccount]))
    (.initManager, .result .processSuccess) savedBank := by
  decide +kernel

end SeccapBank
