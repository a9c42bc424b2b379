import SeccapBank.Account
import SeccapBank.General.Buffer
import SeccapBank.General.Delimited

set_option autoImplicit false

/- The plain text of the account file: the marshalling loops of
AccountListStoreStorage and the loading loop of AccountListSetting. -/
namespace SeccapBank

open CStrings Buffers Delimited Fallible

def comma : UInt8 := 44

def newline : UInt8 := 10

/-- The first loop: the recorded sizes and three separator bytes for each account. -/
def allAccountDataSize (accountList : List Account) : Nat :=
  accountList.foldl (fun size account => size + (account.accountDataSize + 1 + 1 + 1)) 0

/-- The buffer of the second loop and the offset of its write pointer. -/
structure Cursor where
  accountListData : Bytes
  dataPtr : Nat

/-- `memcpy` at the write pointer, which then moves behind the copy. -/
def Cursor.copy (cursor : Cursor) (bytes : Bytes) : Except Fault Cursor := do
  let data ← orFault .outOfBounds (memcpy cursor.accountListData cursor.dataPtr bytes)
  return ⟨data, cursor.dataPtr + bytes.length⟩

/-- `*data_ptr += b` and one step of the write pointer. -/
def Cursor.add (cursor : Cursor) (b : UInt8) : Except Fault Cursor := do
  let data ← orFault .outOfBounds (addAt cursor.accountListData cursor.dataPtr b)
  return ⟨data, cursor.dataPtr + 1⟩

/-- One round of the second loop. Only the first separator is assigned, the other
two are added to what the buffer holds. -/
def marshallAccount (cursor : Cursor) (account : Account) : Except Fault Cursor := do
  let cursor ← cursor.copy account.name
  let cursor ← cursor.copy [comma]
  let cursor ← cursor.copy account.password
  let cursor ← cursor.add comma
  let cursor ← cursor.copy (littleEndian sizeofUInt64 account.deposits.toNat)
  cursor.add newline

def marshallAccountList (accountList : List Account) : Except Fault Bytes := do
  let size := allAccountDataSize accountList
  let cursor ← accountList.foldlM marshallAccount ⟨calloc size, 0⟩
  if cursor.dataPtr = size then return cursor.accountListData else throw .assertion

/-- The two scanning loops: the bytes up to the next comma and those behind it.
The pointer is the list of bytes that it still has before it. -/
def scanField (dataPtr : Bytes) : Except Fault (Bytes × Bytes) :=
  orFault .outOfBounds (takeField comma dataPtr)

/-- One round of the loading loop. -/
def loadAccount (dataPtr : Bytes) : Except Fault (Account × Bytes) := do
  let (name, dataPtr) ← scanField dataPtr
  let (password, dataPtr) ← scanField dataPtr
  if dataPtr.length < sizeofUInt64 then throw .outOfBounds
  let deposits := UInt64.ofNat (ofLittleEndian (dataPtr.take sizeofUInt64))
  -- the pointer steps over the newline inside the assertion itself
  match dataPtr.drop sizeofUInt64 with
  | [] => throw .outOfBounds
  | b :: dataPtr =>
      if b = newline then return (Account.new name password deposits, dataPtr)
      else throw .assertion

/-- The bytes of one account in the file. -/
def record (account : Account) : Bytes :=
  account.name ++ comma :: (account.password ++ comma ::
    (littleEndian sizeofUInt64 account.deposits.toNat ++ [newline]))

def marshalled (accountList : List Account) : Bytes := accountList.flatMap record

/-- A record up to the byte that the assertion of the loading loop looks at. -/
def unended (account : Account) : Bytes :=
  account.name ++ comma :: (account.password ++ comma ::
    littleEndian sizeofUInt64 account.deposits.toNat)

/-- An account that the separators of the format do not cut. -/
def CommaFree (account : Account) : Prop := comma ∉ account.name ∧ comma ∉ account.password

instance (account : Account) : Decidable (CommaFree account) :=
  inferInstanceAs (Decidable (_ ∧ _))

theorem record_unended (account : Account) : record account = unended account ++ [newline] := by
  simp [record, unended]

theorem record_length (account : Account) :
    (record account).length = account.accountDataSize + 3 := by
  simp only [record, List.length_append, List.length_cons, littleEndian_length, List.length_nil,
    account.sized]
  omega

@[simp] theorem marshalled_nil : marshalled [] = [] := rfl

@[simp] theorem marshalled_append (front back : List Account) :
    marshalled (front ++ back) = marshalled front ++ marshalled back :=
  List.flatMap_append

theorem marshalled_singleton (account : Account) : marshalled [account] = record account := by
  simp [marshalled]

theorem marshalled_eq_nil {accountList : List Account} :
    marshalled accountList = [] ↔ accountList = [] := by
  cases accountList with
  | nil => simp
  | cons account rest => simp [marshalled, record]

/-- The first loop computes the length of what the second one writes. -/
theorem allAccountDataSize_eq (accountList : List Account) :
    allAccountDataSize accountList = (marshalled accountList).length := by
  have sum (accounts : List Account) (size : Nat) :
      accounts.foldl (fun size account => size + (account.accountDataSize + 1 + 1 + 1)) size =
        size + (marshalled accounts).length := by
    induction accounts generalizing size with
    | nil => rfl
    | cons account rest ih =>
        simp only [marshalled, List.flatMap_cons, List.length_append, record_length] at ih ⊢
        rw [List.foldl_cons, ih]
        omega
  simpa [allAccountDataSize] using sum accountList 0

theorem Cursor.copy_front (front bytes : Bytes) (room : Nat) :
    Cursor.copy ⟨front ++ calloc (bytes.length + room), front.length⟩ bytes =
      .ok ⟨(front ++ bytes) ++ calloc room, (front ++ bytes).length⟩ := by
  simp [Cursor.copy, memcpy_front]

theorem Cursor.add_front (front : Bytes) (b : UInt8) (room : Nat) :
    Cursor.add ⟨front ++ calloc (1 + room), front.length⟩ b =
      .ok ⟨(front ++ [b]) ++ calloc room, (front ++ [b]).length⟩ := by
  rw [Cursor.add, addAt_front]
  simp

/-- One round writes exactly one record over zeros that no round has touched. -/
theorem marshallAccount_front (front : Bytes) (account : Account) (room : Nat) :
    marshallAccount ⟨front ++ calloc ((record account).length + room), front.length⟩ account =
      .ok ⟨(front ++ record account) ++ calloc room, (front ++ record account).length⟩ := by
  have size : (record account).length + room =
      account.name.length + ([comma].length + (account.password.length + (1 +
        ((littleEndian sizeofUInt64 account.deposits.toNat).length + (1 + room))))) := by
    simp only [record, List.length_append, List.length_cons, List.length_nil]
    omega
  rw [marshallAccount, size]
  simp only [Cursor.copy_front, Cursor.add_front, ok_bind]
  simp [record]

theorem marshallAccount_foldlM (accountList : List Account) (front : Bytes) :
    accountList.foldlM marshallAccount
        ⟨front ++ calloc (marshalled accountList).length, front.length⟩ =
      .ok ⟨front ++ marshalled accountList, (front ++ marshalled accountList).length⟩ := by
  induction accountList generalizing front with
  | nil => simp [calloc]
  | cons account rest ih =>
      have size : (marshalled (account :: rest)).length =
          (record account).length + (marshalled rest).length := by
        simp [marshalled]
      rw [List.foldlM_cons, size, marshallAccount_front, ok_bind, ih]
      simp [marshalled]

/-- Marshalling stays inside its allocation, passes its assertion and yields the
records one after another. -/
theorem marshallAccountList_eq (accountList : List Account) :
    marshallAccountList accountList = .ok (marshalled accountList) := by
  have loop := marshallAccount_foldlM accountList []
  simp only [List.nil_append, List.length_nil] at loop
  simp [marshallAccountList, allAccountDataSize_eq, loop]

theorem scanField_append {field : Bytes} (clean : comma ∉ field) (rest : Bytes) :
    scanField (field ++ comma :: rest) = .ok (field, rest) := by
  rw [scanField, takeField_append clean, orFault_some]

theorem scanField_clean {dataPtr : Bytes} (clean : comma ∉ dataPtr) :
    scanField dataPtr = .error .outOfBounds := by
  rw [scanField, takeField_eq_none.mpr clean, orFault_none]

theorem ofLittleEndian_deposits (deposits : UInt64) :
    UInt64.ofNat (ofLittleEndian (littleEndian sizeofUInt64 deposits.toNat)) = deposits := by
  rw [ofLittleEndian_littleEndian _ _ deposits.toNat_lt, UInt64.ofNat_toNat]

theorem loadAccount_unended {account : Account} (clean : CommaFree account) (b : UInt8)
    (rest : Bytes) :
    loadAccount (unended account ++ b :: rest) =
      if b = newline then .ok (account, rest) else .error .assertion := by
  have shape : unended account ++ b :: rest = account.name ++ comma :: (account.password ++
      comma :: (littleEndian sizeofUInt64 account.deposits.toNat ++ b :: rest)) := by
    simp [unended]
  have width := littleEndian_length sizeofUInt64 account.deposits.toNat
  have enough : ¬ (littleEndian sizeofUInt64 account.deposits.toNat ++
      b :: rest).length < sizeofUInt64 := by
    rw [List.length_append, width]
    omega
  rw [shape, loadAccount, scanField_append clean.1, ok_bind]
  simp only [scanField_append clean.2, ok_bind, enough, ↓reduceIte]
  rw [List.take_left' width, List.drop_left' width, ofLittleEndian_deposits]
  simp only [pure_eq_ok, throw_eq_error, Account.new_fields]

theorem loadAccount_record {account : Account} (clean : CommaFree account) (rest : Bytes) :
    loadAccount (record account ++ rest) = .ok (account, rest) := by
  have loaded := loadAccount_unended clean newline rest
  rwa [if_pos rfl, List.append_cons, ← record_unended] at loaded

theorem deposits_bytes {word : Bytes} (width : word.length = sizeofUInt64) :
    littleEndian sizeofUInt64 (UInt64.ofNat (ofLittleEndian word)).toNat = word := by
  have bound := ofLittleEndian_lt word
  have back := littleEndian_ofLittleEndian word
  rw [width] at bound back
  rw [UInt64.toNat_ofNat_of_lt' bound, back]

/-- A round leaves the buffer, or finds a comma-free account up to the byte that it then
asserts to be a newline. -/
theorem loadAccount_cases (dataPtr : Bytes) :
    loadAccount dataPtr = .error .outOfBounds ∨
      ∃ account b rest, CommaFree account ∧ dataPtr = unended account ++ b :: rest := by
  cases first : takeField comma dataPtr with
  | none =>
      left
      rw [loadAccount, scanField_clean (takeField_eq_none.mp first), error_bind]
  | some p =>
      obtain ⟨name, afterName⟩ := p
      obtain ⟨cleanName, rfl⟩ := takeField_eq_some first
      cases second : takeField comma afterName with
      | none =>
          left
          rw [loadAccount, scanField_append cleanName, ok_bind]
          exact congrArg (· >>= _) (scanField_clean (takeField_eq_none.mp second))
      | some q =>
          obtain ⟨password, afterPassword⟩ := q
          obtain ⟨cleanPassword, rfl⟩ := takeField_eq_some second
          cases behind : afterPassword.drop sizeofUInt64 with
          | nil =>
              left
              rw [loadAccount, scanField_append cleanName, ok_bind]
              simp only [scanField_append cleanPassword, ok_bind, behind]
              split <;> rfl
          | cons b rest =>
              right
              have width : (afterPassword.take sizeofUInt64).length = sizeofUInt64 := by
                have long := congrArg List.length behind
                rw [List.length_drop, List.length_cons] at long
                exact List.length_take_of_le (by omega)
              have whole := List.take_append_drop sizeofUInt64 afterPassword
              rw [behind] at whole
              refine ⟨Account.new name password
                (UInt64.ofNat (ofLittleEndian (afterPassword.take sizeofUInt64))), b, rest,
                ⟨cleanName, cleanPassword⟩, ?_⟩
              simp only [unended, Account.new_name, Account.new_password, Account.new_deposits,
                deposits_bytes width, List.append_assoc, List.cons_append, whole]

/-- A loaded account is comma-free, and its record is what was consumed. -/
theorem loadAccount_sound {dataPtr rest : Bytes} {account : Account}
    (loaded : loadAccount dataPtr = .ok (account, rest)) :
    dataPtr = record account ++ rest ∧ CommaFree account := by
  rcases loadAccount_cases dataPtr with left | ⟨found, b, behind, clean, rfl⟩
  · rw [left] at loaded
    cases loaded
  · rw [loadAccount_unended clean] at loaded
    split at loaded
    · rename_i isNewline
      cases loaded
      rw [isNewline, record_unended, ← List.append_cons]
      exact ⟨rfl, clean⟩
    · cases loaded

theorem loadAccount_fault {dataPtr : Bytes} {fault : Fault}
    (failed : loadAccount dataPtr = .error fault) : fault = .outOfBounds ∨ fault = .assertion := by
  rcases loadAccount_cases dataPtr with left | ⟨account, b, rest, clean, rfl⟩
  · rw [left] at failed
    cases failed
    exact .inl rfl
  · rw [loadAccount_unended clean] at failed
    split at failed
    · cases failed
    · cases failed
      exact .inr rfl

theorem loadAccount_shrinks {dataPtr rest : Bytes} {account : Account}
    (loaded : loadAccount dataPtr = .ok (account, rest)) : rest.length < dataPtr.length := by
  rw [(loadAccount_sound loaded).1, List.length_append, record_length]
  omega

def accountReader : Reader UInt8 Account Fault := ⟨loadAccount, loadAccount_shrinks⟩

/-- `data_ptr - account_list_data == account_list_size` -/
def atSize (accountListData : Bytes) (accountListSize : Nat) (dataPtr : Bytes) : Bool :=
  accountListData.length - dataPtr.length == accountListSize

/-- The loading loop. It is left only when the pointer is exactly at the given size. -/
def loadAccountList (accountListData : Bytes) (accountListSize : Nat) :
    Except Fault (List Account) :=
  readUntil accountReader (atSize accountListData accountListSize) accountListData

theorem loadAccountList_fault {accountListData : Bytes} {accountListSize : Nat} {fault : Fault}
    (failed : loadAccountList accountListData accountListSize = .error fault) :
    fault = .outOfBounds ∨ fault = .assertion := by
  obtain ⟨_, rest, _, here⟩ := readUntil_eq_error.mp failed
  exact loadAccount_fault here

/-- Loading undoes marshalling for every list that the separators do not cut. -/
theorem loadAccountList_marshalled {accountList : List Account} (nonempty : accountList ≠ [])
    (clean : ∀ account ∈ accountList, CommaFree account) :
    loadAccountList (marshalled accountList) (marshalled accountList).length = .ok accountList := by
  have reads : ∀ account ∈ accountList, ∀ rest,
      accountReader.read (record account ++ rest) = .ok (account, rest) :=
    fun account member rest => loadAccount_record (clean account member) rest
  have stops : ∀ back, back <:+ accountList →
      (atSize (marshalled accountList) (marshalled accountList).length
        (back.flatMap record ++ []) = true ↔ back = []) := by
    intro back ordered
    have positive : 0 < (marshalled accountList).length :=
      List.length_pos_iff.mpr (marshalled_eq_nil.not.mpr nonempty)
    rw [List.append_nil, atSize, beq_iff_eq, ← marshalled_eq_nil, ← List.length_eq_zero_iff]
    have within : (marshalled back).length ≤ (marshalled accountList).length := by
      obtain ⟨front, rfl⟩ := ordered
      simp
    change (marshalled accountList).length - (marshalled back).length = _ ↔ _
    omega
  have loop := readUntil_written record accountList nonempty [] reads stops
  rw [List.append_nil] at loop
  exact loop

/-- Where the records of one comma-free list begin those of another, the one begins the other. -/
theorem marshalled_front {a b : List Account} {rest : Bytes}
    (cleanA : ∀ account ∈ a, CommaFree account) (cleanB : ∀ account ∈ b, CommaFree account)
    (same : marshalled a ++ rest = marshalled b) : ∃ c, b = a ++ c ∧ rest = marshalled c := by
  have reads : ∀ account, CommaFree account → ∀ rest,
      accountReader.read (record account ++ rest) = .ok (account, rest) :=
    fun _ clean rest => loadAccount_record clean rest
  exact written_front record CommaFree reads cleanA cleanB same

theorem marshalled_inj {a b : List Account} (cleanA : ∀ account ∈ a, CommaFree account)
    (cleanB : ∀ account ∈ b, CommaFree account) (same : marshalled a = marshalled b) : a = b := by
  obtain ⟨c, rfl, nothing⟩ := marshalled_front cleanA cleanB ((List.append_nil _).trans same)
  rw [marshalled_eq_nil.mp nothing.symm, List.append_nil]

/-- What has been loaded marshals to the bytes consumed, and is comma-free. -/
theorem loadAccountList_sound {accountListData : Bytes} {accountList : List Account}
    (loaded : loadAccountList accountListData accountListData.length = .ok accountList) :
    marshalled accountList = accountListData ∧ accountList ≠ [] ∧
      ∀ account ∈ accountList, CommaFree account := by
  obtain ⟨tail, whole, last, nonempty, clean⟩ :=
    readUntil_sound record CommaFree (fun _ _ _ found => loadAccount_sound found) loaded
  refine ⟨?_, nonempty, clean⟩
  have empty : tail = [] := by
    have positive : 0 < (marshalled accountList).length :=
      List.length_pos_iff.mpr (marshalled_eq_nil.not.mpr nonempty)
    have total := congrArg List.length whole
    rw [List.length_append] at total
    rw [atSize, beq_iff_eq] at last
    change accountListData.length = (marshalled accountList).length + _ at total
    exact List.length_eq_zero_iff.mp (by omega)
  rw [whole, empty, List.append_nil]
  rfl

/-- Where there is no comma the first scan already leaves the buffer. -/
theorem loadAccountList_clean {accountListData : Bytes} (clean : comma ∉ accountListData)
    (accountListSize : Nat) :
    loadAccountList accountListData accountListSize = .error .outOfBounds := by
  apply readUntil_error
  show loadAccount accountListData = _
  rw [loadAccount, scanField_clean clean, error_bind]

/-- Decoding undoes encoding: both loops stay inside the bytes of the list, pass their
assertions, and give back the list. -/
theorem load_of_marshall {accountList : List Account} (nonempty : accountList ≠ [])
    (clean : ∀ account ∈ accountList, CommaFree account) :
    ∃ accountListData, marshallAccountList accountList = .ok accountListData ∧
      loadAccountList accountListData accountListData.length = .ok accountList :=
  ⟨marshalled accountList, marshallAccountList_eq accountList,
    loadAccountList_marshalled nonempty clean⟩

/-- A newline in the name, no password, and a balance that begins with both separators. -/
def awkwardAccount : Account := Account.new (ascii "a\nb") [] 2604

/-- Behind it an account with nothing but a newline, and one with the largest balance. -/
def awkwardAccounts : List Account :=
  [awkwardAccount, Account.new [] (ascii "\n") 0,
    Account.new (ascii "b") (ascii "q") 18446744073709551615]

theorem load_of_marshall_awkward : ∃ accountListData,
    marshallAccountList awkwardAccounts = .ok accountListData ∧
      loadAccountList accountListData accountListData.length = .ok awkwardAccounts :=
  load_of_marshall (List.cons_ne_nil _ _) (by decide)

/-- Encoding undoes decoding: whatever the loading loop accepts is what its accounts
marshal to, they are comma-free, and no other bytes load as the same list. -/
theorem marshall_of_load {accountListData : Bytes} {accountList : List Account}
    (loaded : loadAccountList accountListData accountListData.length = .ok accountList) :
    marshallAccountList accountList = .ok accountListData ∧
      (∀ account ∈ accountList, CommaFree account) ∧
        ∀ other, loadAccountList other other.length = .ok accountList → other = accountListData := by
  obtain ⟨whole, _, clean⟩ := loadAccountList_sound loaded
  refine ⟨?_, clean, fun other again => ?_⟩
  · rw [marshallAccountList_eq, whole]
  · rw [← whole, ← (loadAccountList_sound again).1]

def awkwardBytes : Bytes :=
  ascii "a\nb,," ++ [44, 10, 0, 0, 0, 0, 0, 0, 10] ++
    ascii ",\n," ++ [0, 0, 0, 0, 0, 0, 0, 0, 10] ++
      ascii "b,q," ++ [255, 255, 255, 255, 255, 255, 255, 255, 10]

theorem marshall_of_load_awkward :
    marshallAccountList awkwardAccounts = .ok awkwardBytes ∧
      (∀ account ∈ awkwardAccounts, CommaFree account) ∧
        ∀ other, loadAccountList other other.length = .ok awkwardAccounts →
          other = awkwardBytes := by
  have bytes : marshalled awkwardAccounts = awkwardBytes := by decide
  have loaded : loadAccountList (marshalled awkwardAccounts)
      (marshalled awkwardAccounts).length = .ok awkwardAccounts :=
    loadAccountList_marshalled (List.cons_ne_nil _ _) (by decide)
  rw [bytes] at loaded
  exact marshall_of_load loaded

end SeccapBank
