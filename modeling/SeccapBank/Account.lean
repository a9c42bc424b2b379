import SeccapBank.General.CString
import SeccapBank.General.Fallible

set_option autoImplicit false

namespace SeccapBank

open CStrings

/-- The ways in which a run of the program stops being a run of the program. -/
inductive Fault where
  | nullPointer
  | outOfBounds
  | assertion
  | exitFailure
  deriving DecidableEq, Repr

inductive ProcessResult where
  | processSuccess
  | depositOverflow
  | needLogout
  | accountSetFail
  deriving DecidableEq, Repr

/-- The enumerators' values, which the money ecalls return in a `uint64_t`. -/
def ProcessResult.toUInt64 : ProcessResult → UInt64
  | .processSuccess => 0
  | .depositOverflow => 1
  | .needLogout => 2
  | .accountSetFail => 3

def sizeofUInt64 : Nat := 8

def uint64Max : UInt64 := 18446744073709551615

/-- An account object. Its recorded size is the one its strings have. -/
structure Account where
  name : Bytes
  password : Bytes
  deposits : UInt64
  accountDataSize : Nat
  sized : accountDataSize = name.length + password.length + sizeofUInt64
  deriving DecidableEq

namespace Account

def new (nameArg passwordArg : Bytes) (depositsArg : UInt64) : Account where
  name := nameArg
  password := passwordArg
  deposits := depositsArg
  accountDataSize := nameArg.length + passwordArg.length + sizeofUInt64
  sized := rfl

def newAccount (name password : Bytes) : Account := new name password 0

def withdraw (account : Account) (amount : UInt64) : ProcessResult × Account :=
  if account.deposits < amount then
    (.depositOverflow, account)
  else
    (.processSuccess, { account with deposits := account.deposits - amount })

def deposit (account : Account) (amount : UInt64) : ProcessResult × Account :=
  if uint64Max - account.deposits < amount then
    (.depositOverflow, account)
  else
    (.processSuccess, { account with deposits := account.deposits + amount })

@[simp] theorem new_name (name password : Bytes) (deposits : UInt64) :
    (new name password deposits).name = name := rfl

@[simp] theorem new_password (name password : Bytes) (deposits : UInt64) :
    (new name password deposits).password = password := rfl

@[simp] theorem new_deposits (name password : Bytes) (deposits : UInt64) :
    (new name password deposits).deposits = deposits := rfl

/-- The size field carries no information of its own. -/
theorem ext_fields {a b : Account} (name : a.name = b.name) (password : a.password = b.password)
    (deposits : a.deposits = b.deposits) : a = b := by
  obtain ⟨an, ap, ad, as, ha⟩ := a
  obtain ⟨bn, bp, bd, bs, hb⟩ := b
  simp only at name password deposits
  subst name password deposits
  simp only [ha, hb]

@[simp] theorem new_fields (account : Account) :
    new account.name account.password account.deposits = account :=
  ext_fields rfl rfl rfl

@[simp] theorem withdraw_name (account : Account) (amount : UInt64) :
    (account.withdraw amount).2.name = account.name := by
  unfold withdraw; split <;> rfl

@[simp] theorem withdraw_password (account : Account) (amount : UInt64) :
    (account.withdraw amount).2.password = account.password := by
  unfold withdraw; split <;> rfl

@[simp] theorem deposit_name (account : Account) (amount : UInt64) :
    (account.deposit amount).2.name = account.name := by
  unfold deposit; split <;> rfl

@[simp] theorem deposit_password (account : Account) (amount : UInt64) :
    (account.deposit amount).2.password = account.password := by
  unfold deposit; split <;> rfl

/-- A withdrawal is accepted exactly when the balance covers it. -/
theorem withdraw_success (account : Account) (amount : UInt64) :
    (account.withdraw amount).1 = .processSuccess ↔ amount.toNat ≤ account.deposits.toNat := by
  unfold withdraw
  by_cases short : account.deposits < amount
  · have low := UInt64.lt_iff_toNat_lt.mp short
    rw [if_pos short]
    exact iff_of_false nofun (by omega)
  · rw [if_neg short]
    rw [UInt64.lt_iff_toNat_lt] at short
    exact iff_of_true rfl (by omega)

/-- A deposit is accepted exactly when the sum fits in 64 bits. -/
theorem deposit_success (account : Account) (amount : UInt64) :
    (account.deposit amount).1 = .processSuccess ↔
      account.deposits.toNat + amount.toNat ≤ 2 ^ 64 - 1 := by
  have bound := account.deposits.toNat_lt
  have room : (uint64Max - account.deposits).toNat = 2 ^ 64 - 1 - account.deposits.toNat := by
    apply UInt64.toNat_sub_of_le
    apply UInt64.le_iff_toNat_le.mpr
    show _ ≤ 2 ^ 64 - 1
    omega
  unfold deposit
  by_cases full : uint64Max - account.deposits < amount
  · have high := UInt64.lt_iff_toNat_lt.mp full
    rw [if_pos full]
    exact iff_of_false nofun (by omega)
  · rw [if_neg full]
    rw [UInt64.lt_iff_toNat_lt, room] at full
    exact iff_of_true rfl (by omega)

theorem withdraw_refused {account : Account} {amount : UInt64}
    (refused : (account.withdraw amount).1 ≠ .processSuccess) :
    (account.withdraw amount).2 = account := by
  unfold withdraw at refused ⊢
  split
  · rfl
  · rename_i covers
    rw [if_neg covers] at refused
    exact absurd rfl refused

theorem deposit_refused {account : Account} {amount : UInt64}
    (refused : (account.deposit amount).1 ≠ .processSuccess) :
    (account.deposit amount).2 = account := by
  unfold deposit at refused ⊢
  split
  · rfl
  · rename_i room
    rw [if_neg room] at refused
    exact absurd rfl refused

/-- A withdrawal is a subtraction of integers, or leaves the balance. -/
theorem withdraw_deposits (account : Account) (amount : UInt64) :
    (account.withdraw amount).2.deposits.toNat =
      if amount.toNat ≤ account.deposits.toNat then account.deposits.toNat - amount.toNat
      else account.deposits.toNat := by
  rw [← if_congr (withdraw_success account amount) rfl rfl]
  unfold withdraw
  by_cases short : account.deposits < amount
  · rw [if_pos short, if_neg nofun]
  · rw [if_neg short, if_pos rfl]
    exact UInt64.toNat_sub_of_le _ _ (UInt64.not_lt.mp short)

/-- A deposit is an addition of integers, or leaves the balance. -/
theorem deposit_deposits (account : Account) (amount : UInt64) :
    (account.deposit amount).2.deposits.toNat =
      if account.deposits.toNat + amount.toNat ≤ 2 ^ 64 - 1 then
        account.deposits.toNat + amount.toNat
      else account.deposits.toNat := by
  have accepted := deposit_success account amount
  rw [← if_congr accepted rfl rfl]
  unfold deposit at accepted ⊢
  by_cases full : uint64Max - account.deposits < amount
  · rw [if_pos full, if_neg nofun]
  · rw [if_neg full] at accepted ⊢
    rw [if_pos rfl]
    have small := accepted.mp rfl
    show (account.deposits + amount).toNat = _
    rw [UInt64.toNat_add, Nat.mod_eq_of_lt (by omega)]

end Account

end SeccapBank
