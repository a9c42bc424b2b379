import SeccapBank.Sealing

set_option autoImplicit false

/- A sealing library that satisfies everything assumed of the real one. It keeps the
texts in clear behind a header of the real size and layout: a key id, the offset of
the additional text, the payload size and a checksum in place of the tag. -/
namespace SeccapBank

open CStrings Buffers

namespace ClearSealing

@[irreducible] def headerSize : Nat := 560

/-- The size of a blob, and all ones where it does not fit in 32 bits. -/
def calcSealedDataSize (m n : UInt32) : UInt32 :=
  if m.toNat + n.toNat + headerSize < 2 ^ 32 then
    UInt32.ofNat (m.toNat + n.toNat + headerSize)
  else
    4294967295

def checksum (bytes : Bytes) : Nat := bytes.foldl (fun sum b => 257 * sum + b.toNat + 1) 0

/-- A blob of this key id and these texts. -/
def frame (keyId macTxt plain : Bytes) : Bytes :=
  keyId ++ (calloc 504 ++ (littleEndian 4 plain.length ++ (calloc 12 ++
    (littleEndian 4 (plain.length + macTxt.length) ++ (calloc 12 ++
      (littleEndian 16 (checksum (keyId ++ plain ++ macTxt)) ++ (plain ++ macTxt)))))))

def plainTextOffset (blob : Bytes) : Nat := ofLittleEndian ((blob.drop 512).take 4)

def payloadSize (blob : Bytes) : Nat := ofLittleEndian ((blob.drop 528).take 4)

@[irreducible] def sealData (call : Nat) (macTxt plain : Bytes) (size : UInt32) : Option Bytes :=
  if plain ≠ [] ∧ size.toNat = macTxt.length + plain.length + headerSize then
    some (frame (littleEndian 8 call) macTxt plain)
  else
    none

/-- A blob is accepted when sealing its own texts gives it back. -/
@[irreducible] def unsealData (blob : Bytes) : Option (Bytes × Bytes) :=
  let payload := blob.drop headerSize
  let plain := payload.take (plainTextOffset blob)
  let macTxt := payload.drop (plainTextOffset blob)
  if plain ≠ [] ∧ macTxt.length + plain.length + headerSize < 2 ^ 32 ∧
      frame (blob.take 8) macTxt plain = blob ∧ (blob.take 8).length = 8 then
    some (macTxt, plain)
  else
    none

end ClearSealing

open ClearSealing in
def clearSealing : Sgx where
  headerSize := headerSize
  calcSealedDataSize := calcSealedDataSize
  sealData := sealData
  getAddMacTxtLen blob := UInt32.ofNat (payloadSize blob - plainTextOffset blob)
  getEncryptTxtLen blob := UInt32.ofNat (plainTextOffset blob)
  unsealData := unsealData

namespace ClearSealing

variable (keyId macTxt plain : Bytes)

theorem frame_length (key : keyId.length = 8) :
    (frame keyId macTxt plain).length = macTxt.length + plain.length + headerSize := by
  simp only [frame, List.length_append, calloc_length, littleEndian_length, key, headerSize]
  omega

theorem frame_keyId (key : keyId.length = 8) : (frame keyId macTxt plain).take 8 = keyId := by
  rw [frame, List.take_left' key]

theorem drop_part {part rest : Bytes} {m n : Nat} (length : part.length = m) :
    (part ++ rest).drop (m + n) = rest.drop n := by
  rw [← length, List.drop_append, List.drop_eq_nil_of_le (Nat.le_add_right _ _), List.nil_append,
    Nat.add_sub_cancel_left]

theorem frame_payload (key : keyId.length = 8) :
    (frame keyId macTxt plain).drop headerSize = plain ++ macTxt := by
  have size : headerSize = 8 + (504 + (4 + (12 + (4 + (12 + (16 + 0)))))) := by rw [headerSize]
  rw [size, frame, drop_part key, drop_part (calloc_length _), drop_part (littleEndian_length _ _),
    drop_part (calloc_length _), drop_part (littleEndian_length _ _), drop_part (calloc_length _),
    drop_part (littleEndian_length _ _), List.drop_zero]

theorem frame_plainTextOffset (key : keyId.length = 8) (bound : plain.length < 2 ^ 32) :
    plainTextOffset (frame keyId macTxt plain) = plain.length := by
  have field : ((frame keyId macTxt plain).drop 512).take 4 = littleEndian 4 plain.length := by
    show ((frame keyId macTxt plain).drop (8 + (504 + 0))).take 4 = _
    rw [frame, drop_part key, drop_part (calloc_length _), List.drop_zero,
      List.take_left' (littleEndian_length _ _)]
  rw [plainTextOffset, field]
  exact ofLittleEndian_littleEndian 4 _ bound

theorem frame_payloadSize (key : keyId.length = 8) (bound : plain.length + macTxt.length < 2 ^ 32) :
    payloadSize (frame keyId macTxt plain) = plain.length + macTxt.length := by
  have field : ((frame keyId macTxt plain).drop 528).take 4 =
      littleEndian 4 (plain.length + macTxt.length) := by
    show ((frame keyId macTxt plain).drop (8 + (504 + (4 + (12 + 0))))).take 4 = _
    rw [frame, drop_part key, drop_part (calloc_length _), drop_part (littleEndian_length _ _),
      drop_part (calloc_length _), List.drop_zero, List.take_left' (littleEndian_length _ _)]
  rw [payloadSize, field]
  exact ofLittleEndian_littleEndian 4 _ bound

variable {keyId macTxt plain} {call : Nat} {size : UInt32} {blob : Bytes}

theorem uint32_toNat {n : Nat} (bound : n < 2 ^ 32) : (UInt32.ofNat n).toNat = n :=
  UInt32.toNat_ofNat_of_lt' bound

theorem calcSealedDataSize_toNat (m n : UInt32) (bound : m.toNat + n.toNat + headerSize < 2 ^ 32) :
    (calcSealedDataSize m n).toNat = m.toNat + n.toNat + headerSize := by
  rw [calcSealedDataSize, if_pos bound, uint32_toNat bound]

theorem sealData_eq_some (sealed : sealData call macTxt plain size = some blob) :
    plain ≠ [] ∧ size.toNat = macTxt.length + plain.length + headerSize ∧
      blob = frame (littleEndian 8 call) macTxt plain := by
  unfold sealData at sealed
  split at sealed
  · rename_i accepted
    cases sealed
    exact ⟨accepted.1, accepted.2, rfl⟩
  · cases sealed

theorem sealData_frame (nonempty : plain ≠ [])
    (bound : macTxt.length + plain.length + headerSize < 2 ^ 32)
    (framed : frame (littleEndian 8 call) macTxt plain = blob) :
    sealData call macTxt plain (UInt32.ofNat (macTxt.length + plain.length + headerSize)) =
      some blob := by
  rw [sealData, if_pos ⟨nonempty, uint32_toNat bound⟩, framed]

theorem unsealData_frame (nonempty : plain ≠ []) (key : keyId.length = 8)
    (bound : macTxt.length + plain.length + headerSize < 2 ^ 32) :
    unsealData (frame keyId macTxt plain) = some (macTxt, plain) := by
  have short : plain.length < 2 ^ 32 := by omega
  unfold unsealData
  rw [frame_payload _ _ _ key, frame_plainTextOffset _ _ _ key short, frame_keyId _ _ _ key]
  dsimp only
  rw [List.take_left, List.drop_left]
  exact if_pos ⟨nonempty, bound, rfl, key⟩

end ClearSealing

open ClearSealing

theorem clearSealing_headerSize : clearSealing.headerSize = headerSize := rfl

theorem clearSealing_calcSealedDataSize :
    clearSealing.calcSealedDataSize = calcSealedDataSize := rfl

theorem clearSealing_documented : clearSealing.Documented where
  header_bound := by
    rw [clearSealing_headerSize, headerSize]
    decide
  calc_size := by
    rw [clearSealing_headerSize, clearSealing_calcSealedDataSize]
    exact calcSealedDataSize_toNat
  seal_size := by
    intro call mac plain size blob sealed
    obtain ⟨_, total, rfl⟩ := sealData_eq_some sealed
    rw [clearSealing_headerSize]
    refine ⟨total, ?_⟩
    rw [frame_length _ _ _ (littleEndian_length 8 call), total]
  mac_len := by
    intro call mac plain size blob sealed
    obtain ⟨_, total, rfl⟩ := sealData_eq_some sealed
    have small := size.toNat_lt
    have key := littleEndian_length 8 call
    show (UInt32.ofNat (payloadSize _ - plainTextOffset _)).toNat = _
    rw [frame_payloadSize _ _ _ key (by omega), frame_plainTextOffset _ _ _ key (by omega),
      Nat.add_sub_cancel_left]
    apply uint32_toNat
    omega
  plain_len := by
    intro call mac plain size blob sealed
    obtain ⟨_, total, rfl⟩ := sealData_eq_some sealed
    have small := size.toNat_lt
    show (UInt32.ofNat (plainTextOffset _)).toNat = _
    rw [frame_plainTextOffset _ _ _ (littleEndian_length 8 call) (by omega)]
    apply uint32_toNat
    omega
  unseal_seal := by
    intro call mac plain size blob sealed
    obtain ⟨nonempty, total, rfl⟩ := sealData_eq_some sealed
    have small := size.toNat_lt
    exact unsealData_frame nonempty (littleEndian_length 8 call) (by omega)

theorem clearSealing_reliable : clearSealing.Reliable := by
  intro call mac plain size nonempty total
  rw [clearSealing_headerSize] at total
  have accepted : sealData call mac plain size = some (frame (littleEndian 8 call) mac plain) := by
    rw [sealData]
    exact if_pos ⟨nonempty, total⟩
  exact ⟨_, accepted⟩

theorem clearSealing_authentic : clearSealing.Authentic := by
  intro blob texts accepted
  change unsealData blob = some texts at accepted
  unfold unsealData at accepted
  dsimp only at accepted
  split at accepted
  · rename_i checks
    obtain ⟨nonempty, bound, same, key⟩ := checks
    have word := littleEndian_ofLittleEndian (blob.take 8)
    rw [key] at word
    cases accepted
    exact ⟨_, _, _, _, sealData_frame nonempty bound (by rw [word, same])⟩
  · cases accepted

end SeccapBank
