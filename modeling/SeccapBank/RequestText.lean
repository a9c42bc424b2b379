import SeccapBank.ServerRequest

set_option autoImplicit false

/- The request texts, and what the server makes of a buffer that begins with one. -/
namespace SeccapBank

open CStrings Buffers Fallible Decimals

/-- Bytes that the split hands on as they are. -/
structure Field where
  bytes : Bytes
  nulFree : (0 : UInt8) ∉ bytes
  commaFree : comma ∉ bytes

inductive RequestText where
  | login (name password : Field)
  | deposit (amount : Field)
  | withdraw (amount : Field)

def RequestText.fields : RequestText → List Bytes
  | .login name password => [ascii "login", name.bytes, password.bytes]
  | .deposit amount => [ascii "deposit", amount.bytes]
  | .withdraw amount => [ascii "withdraw", amount.bytes]

/-- Every field with a comma behind it. -/
def RequestText.bytes (text : RequestText) : Bytes := text.fields.flatMap (· ++ [comma])

/-- The request that the text asks for. -/
def RequestText.request : RequestText → Request
  | .login name password => .login ⟨name.bytes, name.nulFree⟩ ⟨password.bytes, password.nulFree⟩
  | .deposit amount => .deposit (amountOf amount.bytes)
  | .withdraw amount => .withdraw (amountOf amount.bytes)

variable (text : RequestText)

theorem RequestText.clean : ∀ field ∈ text.fields, comma ∉ field := by
  intro field member
  cases text with
  | login name password =>
      rcases List.mem_cons.mp member with rfl | member
      · decide
      · rcases List.mem_pair.mp member with rfl | rfl
        · exact name.commaFree
        · exact password.commaFree
  | deposit amount =>
      rcases List.mem_pair.mp member with rfl | rfl
      · decide
      · exact amount.commaFree
  | withdraw amount =>
      rcases List.mem_pair.mp member with rfl | rfl
      · decide
      · exact amount.commaFree

theorem RequestText.request_fields : text.request.fields = text.fields.length := by
  cases text <;> rfl

theorem RequestText.fields_le : text.fields.length ≤ 3 := by
  cases text with
  | login name password => exact Nat.le_refl 3
  | deposit amount => exact Nat.le_succ 2
  | withdraw amount => exact Nat.le_succ 2

theorem RequestText.count_comma (tail : Bytes) :
    (text.bytes ++ tail).count comma = text.fields.length + tail.count comma :=
  Delimited.count_fields text.fields text.clean tail

theorem RequestText.dispatched (buf : Bytes) (rest : List Bytes) :
    dispatch buf (text.fields ++ rest) = .ok text.request := by
  cases text with
  | login name password =>
      have named := CString.ofBytes_nulFree name.nulFree
      have given := CString.ofBytes_nulFree password.nulFree
      show dispatch buf (ascii "login" :: name.bytes :: password.bytes :: rest) = _
      rw [dispatch_login, named, given]
      rfl
  | deposit amount => exact dispatch_deposit buf amount.bytes rest
  | withdraw amount => exact dispatch_withdraw buf amount.bytes rest

/-- A buffer with a text at its front asks for just that text as long as there are at
most three commas in all, and leaves the arrays of the split otherwise. -/
theorem requestOf_text {tail : Bytes} (whole : (text.bytes ++ tail).length = receiveBufSize) :
    requestOf (text.bytes ++ tail) =
      if text.fields.length + tail.count comma ≤ 3 then .ok text.request
      else .error .outOfBounds := by
  have commas := text.count_comma tail
  by_cases fits : text.fields.length + tail.count comma ≤ 3
  · have found : Delimited.segments comma (text.bytes ++ tail) =
        text.fields ++ Delimited.segments comma tail :=
      Delimited.segments_fields text.fields text.clean tail
    rw [if_pos fits, requestOf_eq whole (by omega), found]
    exact text.dispatched _ _
  · rw [if_neg fits]
    exact requestOf_overflow whole (by omega)

end SeccapBank
