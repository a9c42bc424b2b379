import SeccapBank.AccountListFormat

set_option autoImplicit false

/- The second loop of AccountListStoreStorage store by store: where each one writes, and
what the buffer holds there before it. -/
namespace SeccapBank

open CStrings Buffers Fallible

/-- One store through `data_ptr`: bytes that replace the old ones, or a `+=` on one byte. -/
inductive Write where
  | copy (bytes : Bytes)
  | add (b : UInt8)

def Write.bytes : Write → Bytes
  | .copy bytes => bytes
  | .add b => [b]

def Write.run (cursor : Cursor) : Write → Except Fault Cursor
  | .copy bytes => cursor.copy bytes
  | .add b => cursor.add b

/-- The stores of one round. -/
def writes (account : Account) : List Write :=
  [.copy account.name, .copy [comma], .copy account.password, .add comma,
    .copy (littleEndian sizeofUInt64 account.deposits.toNat), .add newline]

/-- The bytes that these stores write. -/
def written (stores : List Write) : Bytes := stores.flatMap Write.bytes

theorem written_append (first second : List Write) :
    written (first ++ second) = written first ++ written second :=
  List.flatMap_append

theorem written_cons_length (store : Write) (stores : List Write) :
    (written (store :: stores)).length = store.bytes.length + (written stores).length := by
  rw [written, List.flatMap_cons, List.length_append]
  rfl

theorem written_writes (account : Account) : written (writes account) = record account := by
  simp [written, writes, record, Write.bytes]

theorem written_flatMap (accountList : List Account) :
    written (accountList.flatMap writes) = marshalled accountList := by
  induction accountList with
  | nil => rfl
  | cons account rest ih =>
      rw [List.flatMap_cons, written_append, written_writes, ih]
      rfl

theorem marshallAccount_writes (cursor : Cursor) (account : Account) :
    marshallAccount cursor account = (writes account).foldlM Write.run cursor := by
  simp only [marshallAccount, writes, List.foldlM_cons, List.foldlM_nil, Write.run, bind_pure]

/-- The loop is the stores of all its rounds. -/
theorem marshallAccount_loop (accountList : List Account) (cursor : Cursor) :
    accountList.foldlM marshallAccount cursor =
      (accountList.flatMap writes).foldlM Write.run cursor := by
  induction accountList generalizing cursor with
  | nil => rfl
  | cons account rest ih =>
      rw [List.foldlM_cons, List.flatMap_cons, List.foldlM_append, marshallAccount_writes]
      exact congrArg _ (funext ih)

/-- On zeros that no store has touched, both kinds of store leave their own bytes. -/
theorem Write.run_front (store : Write) (front : Bytes) (room : Nat) :
    Write.run ⟨front ++ calloc (store.bytes.length + room), front.length⟩ store =
      .ok ⟨(front ++ store.bytes) ++ calloc room, (front ++ store.bytes).length⟩ := by
  cases store with
  | copy bytes => exact Cursor.copy_front front bytes room
  | add b => exact Cursor.add_front front b room

theorem writes_front (stores : List Write) (front : Bytes) (room : Nat) :
    stores.foldlM Write.run
        ⟨front ++ calloc ((written stores).length + room), front.length⟩ =
      .ok ⟨(front ++ written stores) ++ calloc room, (front ++ written stores).length⟩ := by
  induction stores generalizing front with
  | nil => simp [written]
  | cons store rest ih =>
      have size : (written (store :: rest)).length + room =
          store.bytes.length + ((written rest).length + room) := by
        rw [written_cons_length, Nat.add_assoc]
      rw [List.foldlM_cons, size, store.run_front, ok_bind, ih, List.append_assoc front]
      rfl

/-- Each store goes to bytes of a buffer of this size that directly follow those of the
stores before it, and that are all still zero. -/
def WritesOnce (size : Nat) (stores : List Write) : Prop :=
  ∀ earlier store later, stores = earlier ++ store :: later →
    ∃ cursor, earlier.foldlM Write.run ⟨calloc size, 0⟩ = .ok cursor ∧
      cursor.accountListData.length = size ∧ cursor.dataPtr = (written earlier).length ∧
        cursor.dataPtr + store.bytes.length ≤ size ∧
          ∀ i, cursor.dataPtr ≤ i → i < size → cursor.accountListData[i]? = some 0

theorem writesOnce (stores : List Write) : WritesOnce (written stores).length stores := by
  rintro earlier store later rfl
  have size : (written (earlier ++ store :: later)).length =
      (written earlier).length + (store.bytes.length + (written later).length) := by
    rw [written_append, List.length_append, written_cons_length]
  have before := writes_front earlier [] (store.bytes.length + (written later).length)
  rw [List.nil_append, List.nil_append, List.length_nil, ← size] at before
  refine ⟨_, before, ?_, rfl, ?_, ?_⟩
  · rw [List.length_append, calloc_length, size]
  · show (written earlier).length + store.bytes.length ≤ _
    omega
  · intro i behind inside
    change (written earlier).length ≤ i at behind
    rw [List.getElem?_append_right behind, calloc, List.getElem?_replicate, if_pos (by omega)]

/-- Marshalling any list of accounts writes exactly the bytes it allocated, each of them
once, and passes its assertion. Every account carries the invariant of its recorded size,
however it was made. -/
theorem marshalling_exact (accountList : List Account) :
    allAccountDataSize accountList = (written (accountList.flatMap writes)).length ∧
      (∀ cursor, accountList.foldlM marshallAccount cursor =
        (accountList.flatMap writes).foldlM Write.run cursor) ∧
        WritesOnce (allAccountDataSize accountList) (accountList.flatMap writes) ∧
          marshallAccountList accountList = .ok (accountList.flatMap record) := by
  have size : allAccountDataSize accountList = (written (accountList.flatMap writes)).length := by
    rw [written_flatMap, allAccountDataSize_eq]
  refine ⟨size, marshallAccount_loop accountList, ?_, marshallAccountList_eq accountList⟩
  rw [size]
  exact writesOnce (accountList.flatMap writes)

end SeccapBank
