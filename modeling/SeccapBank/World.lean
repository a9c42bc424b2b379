import SeccapBank.AccountListFormat

set_option autoImplicit false

/- The state that the ecalls act on: the enclave's heap and its one global
pointer, and the file and console of the untrusted side. -/
namespace SeccapBank

open CStrings Buffers Fallible

structure SealingUnsealing where
  addMacTxt : Bytes
  deriving DecidableEq

def SealingUnsealing.new : SealingUnsealing := ⟨ascii ""⟩

/-- The place of an account object among all that were ever allocated. -/
abbrev AccountPtr := Nat

structure DealManager where
  sealingUnsealing : SealingUnsealing
  currentAccount : Option AccountPtr
  accountList : List AccountPtr
  deriving DecidableEq

def DealManager.new : DealManager := ⟨.new, none, []⟩

structure World where
  heap : List Account
  dealManager : Option DealManager
  -- the "account" file, which is never created by the program
  accountFile : Option Bytes
  -- how often sgx_seal_data was called; no two calls need give the same blob
  sealCalls : Nat
  console : List String
  deriving DecidableEq

abbrev Bank := Exec World Fault

/-- Lines printed behind what the console already shows. -/
def World.print (w : World) (lines : List String) : World :=
  { w with console := w.console ++ lines }

@[simp] theorem World.print_accountFile (w : World) (lines : List String) :
    (w.print lines).accountFile = w.accountFile := rfl

theorem World.print_print (w : World) (first second : List String) :
    (w.print first).print second = w.print (first ++ second) := by
  simp [World.print]

theorem World.print_nil (w : World) : w.print [] = w := by
  simp [World.print]

def printf (line : String) : Bank Unit := modify fun w => w.print [line]

/-- `DEAL_MANAGER->`, a fault while the pointer is NULL. -/
def theManager : Bank DealManager := do
  match (← get).dealManager with
  | some manager => return manager
  | none => throw .nullPointer

def setManager (manager : DealManager) : Bank Unit :=
  modify fun w => { w with dealManager := some manager }

def alloc (account : Account) : Bank AccountPtr := do
  let w ← get
  set { w with heap := w.heap ++ [account] }
  return w.heap.length

def deref (ptr : AccountPtr) : Bank Account := do
  match (← get).heap[ptr]? with
  | some account => return account
  | none => throw .nullPointer

def assign (ptr : AccountPtr) (account : Account) : Bank Unit :=
  modify fun w => { w with heap := w.heap.set ptr account }

def derefAll : List AccountPtr → Bank (List Account)
  | [] => return []
  | ptr :: rest => do
      let account ← deref ptr
      let accounts ← derefAll rest
      return account :: accounts

def allocAll : List Account → Bank (List AccountPtr)
  | [] => return []
  | account :: rest => do
      let ptr ← alloc account
      let ptrs ← allocAll rest
      return ptr :: ptrs

/-- The file is opened for reading and writing, so it is neither created nor
truncated: the new bytes replace as many old ones at its front. -/
def ocallAccountListStore (accountListData : Bytes) (accountDataLen : Nat) : Bank Unit := do
  match (← get).accountFile with
  | none => throw .exitFailure
  | some old =>
      modify fun w =>
        { w with accountFile := some (blit old (accountListData.take accountDataLen)) }

def ocallGetSealedAccountListSize : Bank Nat := do
  match (← get).accountFile with
  | none => throw .exitFailure
  | some content => return content.length

/-- Fills the given buffer from the front of the file. -/
def ocallGetSealedAccountList (buffer : Bytes) : Bank Bytes := do
  if buffer.length > 0 then
    match (← get).accountFile with
    | none => throw .exitFailure
    | some content =>
        if content.length < buffer.length then printf "read account file failed.\n"
        return blit buffer (content.take buffer.length)
  else
    return buffer

/-- The accounts that the pointers of the list denote, in order. -/
def World.listed (w : World) (ptrs : List AccountPtr) : List Account :=
  ptrs.filterMap (w.heap[·]?)

/-- Every pointer denotes an object. -/
def World.Valid (w : World) (ptrs : List AccountPtr) : Prop := ∀ ptr ∈ ptrs, ptr < w.heap.length

@[simp] theorem printf_run (line : String) (w : World) :
    (printf line).run w = .ok ((), w.print [line]) := rfl

theorem theManager_run {w : World} {manager : DealManager}
    (present : w.dealManager = some manager) :
    theManager.run w = .ok (manager, w) := by
  simp [theManager, present]

theorem theManager_run_null {w : World} (absent : w.dealManager = none) :
    theManager.run w = .error .nullPointer := by
  rw [theManager, run_bind_of_ok (get_run w), absent]
  rfl

@[simp] theorem setManager_run (manager : DealManager) (w : World) :
    (setManager manager).run w = .ok ((), { w with dealManager := some manager }) := rfl

@[simp] theorem alloc_run (account : Account) (w : World) :
    (alloc account).run w = .ok (w.heap.length, { w with heap := w.heap ++ [account] }) := rfl

@[simp] theorem assign_run (ptr : AccountPtr) (account : Account) (w : World) :
    (assign ptr account).run w = .ok ((), { w with heap := w.heap.set ptr account }) := rfl

theorem deref_run {w : World} {ptr : AccountPtr} {account : Account}
    (present : w.heap[ptr]? = some account) : (deref ptr).run w = .ok (account, w) := by
  simp [deref, present]

theorem World.listed_cons {w : World} {ptr : AccountPtr} {account : Account}
    (present : w.heap[ptr]? = some account) (rest : List AccountPtr) :
    w.listed (ptr :: rest) = account :: w.listed rest := by
  simp [World.listed, present]

theorem derefAll_run {w : World} {ptrs : List AccountPtr} (valid : w.Valid ptrs) :
    (derefAll ptrs).run w = .ok (w.listed ptrs, w) := by
  induction ptrs with
  | nil => rfl
  | cons ptr rest ih =>
      have present := List.getElem?_eq_getElem (valid ptr (List.mem_cons_self ..))
      have inner := ih fun p member => valid p (List.mem_cons_of_mem _ member)
      rw [derefAll, run_bind_of_ok (deref_run present), run_bind_of_ok inner,
        World.listed_cons present]
      rfl

theorem allocAll_run (accounts : List Account) (w : World) :
    (allocAll accounts).run w =
      .ok ((List.range accounts.length).map (w.heap.length + ·),
        { w with heap := w.heap ++ accounts }) := by
  induction accounts generalizing w with
  | nil => simp [allocAll]
  | cons account rest ih =>
      have shifted : (List.range rest.length).map ((w.heap ++ [account]).length + ·) =
          (List.range rest.length).map ((w.heap.length + ·) ∘ Nat.succ) := by
        apply List.map_congr_left
        intro i _
        simp only [List.length_append, List.length_singleton, Function.comp_apply]
        omega
      rw [allocAll, run_bind_of_ok (alloc_run account w), run_bind_of_ok (ih _), shifted]
      simp [List.range_succ_eq_map]

theorem ocallAccountListStore_run {w : World} {old : Bytes} (present : w.accountFile = some old)
    (accountListData : Bytes) (accountDataLen : Nat) :
    (ocallAccountListStore accountListData accountDataLen).run w =
      .ok ((),
        { w with accountFile := some (blit old (accountListData.take accountDataLen)) }) := by
  simp [ocallAccountListStore, present]

theorem ocallGetSealedAccountListSize_run {w : World} {content : Bytes}
    (present : w.accountFile = some content) :
    ocallGetSealedAccountListSize.run w = .ok (content.length, w) := by
  simp [ocallGetSealedAccountListSize, present]

/-- A buffer of the size just asked for receives the whole file. -/
theorem ocallGetSealedAccountList_run {w : World} {content : Bytes}
    (present : w.accountFile = some content) :
    (ocallGetSealedAccountList (calloc content.length)).run w = .ok (content, w) := by
  by_cases positive : (calloc content.length).length > 0
  · have whole : blit (calloc content.length) content = content := blit_length_of_le (by simp)
    rw [ocallGetSealedAccountList, if_pos positive]
    simp [present, whole]
  · have empty : content = [] := by simpa using positive
    rw [ocallGetSealedAccountList, if_neg positive, empty]
    rfl

end SeccapBank
