import SeccapBank.World

set_option autoImplicit false

/- The class SealingUnsealing over the sealing functions of the SGX library,
which are not part of the repository and stay parameters. -/
namespace SeccapBank

open CStrings Buffers Fallible

/-- The functions of `sgx_tseal` that the enclave calls. A blob is a function of
the call and not only of its arguments, since each call draws a fresh key id. -/
structure Sgx where
  -- sizeof(sgx_sealed_data_t)
  headerSize : Nat
  calcSealedDataSize : UInt32 → UInt32 → UInt32
  -- call number, additional text, plain text, size of the output buffer
  sealData : Nat → Bytes → Bytes → UInt32 → Option Bytes
  getAddMacTxtLen : Bytes → UInt32
  getEncryptTxtLen : Bytes → UInt32
  unsealData : Bytes → Option (Bytes × Bytes)

variable (sgx : Sgx)

/-- `sealed_data_size` before it is narrowed to 16 bits. -/
def sealedDataSize (s : SealingUnsealing) (txtEncryptSize : UInt32) : UInt32 :=
  sgx.calcSealedDataSize (UInt32.ofNat (cstr s.addMacTxt).length) txtEncryptSize

/-- Both size checks only print; the narrowed size is returned in any case. -/
def getSealedDataSize (s : SealingUnsealing) (txtEncryptSize limitSealedDataSize : UInt32) :
    Bank UInt16 := do
  let size := sealedDataSize sgx s txtEncryptSize
  if 65535 < size then
    printf s!"sealed data size too big. sealed_data_size: {size.toInt32}\n"
  if limitSealedDataSize < size then
    printf s!"sealed data size exceeds limit_sealed_data_size. sealed_data_size: {size.toInt32}\n"
  return size.toUInt16

def countSeal : Bank Nat := do
  let w ← get
  set { w with sealCalls := w.sealCalls + 1 }
  return w.sealCalls

/-- A failed `sgx_seal_data` leaves the zeroed buffer as it was allocated, and the
buffer is returned all the same. Allocation does not fail here. -/
def sealing (s : SealingUnsealing) (secretPlainData : Bytes) (secretPlainDataSize : UInt16)
    (limitSealedDataSize : UInt32) : Bank (Bytes × UInt16) := do
  let size ← getSealedDataSize sgx s secretPlainDataSize.toUInt32 limitSealedDataSize
  let call ← countSeal
  match sgx.sealData call (cstr s.addMacTxt) (secretPlainData.take secretPlainDataSize.toNat)
      size.toUInt32 with
  | some blob => return (blob, size)
  | none =>
      let plainSize := secretPlainDataSize
      printf s!"sealing failed. sealed_data_size: {size}, secret_plain_data_size: {plainSize}\n"
      return (calloc size.toNat, size)

/-- The two output buffers of `sgx_unseal_data` and the lengths it leaves. -/
structure Unsealed where
  decryptedMacTxt : Bytes
  macTxtLen : Nat
  decryptedSecretData : Bytes
  decryptedDataLen : Nat

/-- The buffers are as large as the header in the blob says. Their lengths become
the real ones only when `sgx_unseal_data` succeeds; when it fails the zeroed
buffers and the lengths of the header stay. -/
def decrypt (encryptedSecretData : Bytes) : Bank Unsealed :=
  if encryptedSecretData.length < sgx.headerSize then
    throw .outOfBounds
  else do
    let macTxtLen := sgx.getAddMacTxtLen encryptedSecretData
    let decryptedDataLen := sgx.getEncryptTxtLen encryptedSecretData
    let decryptedMacTxt := calloc macTxtLen.toNat
    let decryptedSecretData := calloc decryptedDataLen.toNat
    match sgx.unsealData encryptedSecretData with
    | some (macTxt, secret) =>
        return ⟨blit decryptedMacTxt macTxt, macTxt.length,
          blit decryptedSecretData secret, secret.length⟩
    | none =>
        let macLen := macTxtLen.toInt32
        let dataLen := decryptedDataLen.toInt32
        printf s!"unsealing failed. mac_txt_len: {macLen}, decrypted_data_len: {dataLen}\n"
        return ⟨decryptedMacTxt, macTxtLen.toNat, decryptedSecretData, decryptedDataLen.toNat⟩

/-- The assertion of `unsealing`: `memcmp` with the additional text and its NUL. -/
def assertAddMacTxt (s : SealingUnsealing) (unsealed : Unsealed) : Bank Unit :=
  let expected := cstr s.addMacTxt ++ [0]
  if expected.length < unsealed.macTxtLen then
    throw .outOfBounds
  else if unsealed.decryptedMacTxt.take unsealed.macTxtLen ≠ expected.take unsealed.macTxtLen then
    throw .assertion
  else
    return ()

/-- A failed `sgx_unseal_data` is printed and otherwise ignored. -/
def unsealing (s : SealingUnsealing) (encryptedSecretData : Bytes) : Bank (Bytes × UInt16) := do
  let unsealed ← decrypt sgx encryptedSecretData
  assertAddMacTxt s unsealed
  return (unsealed.decryptedSecretData, UInt16.ofNat unsealed.decryptedDataLen)

/-- What is documented of the library: the size of a blob is the header and both
texts, any other buffer size is refused, and a blob unseals to its texts. -/
structure Sgx.Documented : Prop where
  header_bound : sgx.headerSize < 2 ^ 16
  calc_size : ∀ m n : UInt32, m.toNat + n.toNat + sgx.headerSize < 2 ^ 32 →
    (sgx.calcSealedDataSize m n).toNat = m.toNat + n.toNat + sgx.headerSize
  seal_size : ∀ call mac plain size blob, sgx.sealData call mac plain size = some blob →
    size.toNat = mac.length + plain.length + sgx.headerSize ∧ blob.length = size.toNat
  mac_len : ∀ call mac plain size blob, sgx.sealData call mac plain size = some blob →
    (sgx.getAddMacTxtLen blob).toNat = mac.length
  plain_len : ∀ call mac plain size blob, sgx.sealData call mac plain size = some blob →
    (sgx.getEncryptTxtLen blob).toNat = plain.length
  unseal_seal : ∀ call mac plain size blob, sgx.sealData call mac plain size = some blob →
    sgx.unsealData blob = some (mac, plain)

/-- A nonempty text and a buffer of the right size are never refused. -/
def Sgx.Reliable : Prop := ∀ call mac plain size, plain ≠ [] →
  size.toNat = mac.length + plain.length + sgx.headerSize →
  ∃ blob, sgx.sealData call mac plain size = some blob

/-- No content is accepted that sealing did not produce as a whole. The function of the SDK is
given no length and reads the size of the blob in its header, so that it would also accept a
blob with bytes behind it: such a content counts as refused here. -/
def Sgx.Authentic : Prop := ∀ blob texts, sgx.unsealData blob = some texts →
  ∃ call mac plain size, sgx.sealData call mac plain size = some blob

/-- The buffer that `sealing` hands back, whatever became of the sealing. -/
def sealedBuffer (s : SealingUnsealing) (call : Nat) (secretPlainData : Bytes)
    (secretPlainDataSize : UInt16) : Bytes :=
  let size := (sealedDataSize sgx s secretPlainDataSize.toUInt32).toUInt16
  match sgx.sealData call (cstr s.addMacTxt) (secretPlainData.take secretPlainDataSize.toNat)
      size.toUInt32 with
  | some blob => blob
  | none => calloc size.toNat

theorem getSealedDataSize_run (s : SealingUnsealing) (txtEncryptSize limit : UInt32) (w : World) :
    ∃ lines, (getSealedDataSize sgx s txtEncryptSize limit).run w =
      .ok ((sealedDataSize sgx s txtEncryptSize).toUInt16, w.print lines) := by
  unfold getSealedDataSize
  by_cases big : 65535 < sealedDataSize sgx s txtEncryptSize <;>
    by_cases exceeds : limit < sealedDataSize sgx s txtEncryptSize <;>
    simp only [big, exceeds, ↓reduceIte, StateT.run_bind, printf_run, StateT.run_pure, pure_eq_ok,
      ok_bind, World.print_print]
  · exact ⟨_, rfl⟩
  · exact ⟨_, rfl⟩
  · exact ⟨_, rfl⟩
  · exact ⟨[], by rw [World.print_nil]⟩

theorem sealing_run (s : SealingUnsealing) (secretPlainData : Bytes) (size : UInt16)
    (limit : UInt32) (w : World) :
    ∃ lines, (sealing sgx s secretPlainData size limit).run w =
      .ok ((sealedBuffer sgx s w.sealCalls secretPlainData size,
          (sealedDataSize sgx s size.toUInt32).toUInt16),
        ({ w with sealCalls := w.sealCalls + 1 }).print lines) := by
  obtain ⟨lines, sized⟩ := getSealedDataSize_run sgx s size.toUInt32 limit w
  have counted : countSeal.run (w.print lines) =
      .ok (w.sealCalls, ({ w with sealCalls := w.sealCalls + 1 }).print lines) := rfl
  rw [sealing, run_bind_of_ok sized, run_bind_of_ok counted, sealedBuffer]
  split
  · exact ⟨lines, rfl⟩
  · simp only [StateT.run_bind, printf_run, ok_bind, StateT.run_pure, pure_eq_ok,
      World.print_print]
    exact ⟨_, rfl⟩

/-- A blob that sealing produced is restored, with its size cut to 16 bits. -/
theorem unsealing_run (doc : sgx.Documented) {s : SealingUnsealing} {call : Nat} {plain : Bytes}
    {size : UInt32} {blob : Bytes}
    (genuine : sgx.sealData call (cstr s.addMacTxt) plain size = some blob) (w : World) :
    (unsealing sgx s blob).run w = .ok ((plain, UInt16.ofNat plain.length), w) := by
  obtain ⟨total, long⟩ := doc.seal_size _ _ _ _ _ genuine
  have header : ¬ blob.length < sgx.headerSize := by omega
  have restored : blit (calloc plain.length) plain = plain := blit_length_of_le (by simp)
  have macTxt : blit (calloc (cstr s.addMacTxt).length) (cstr s.addMacTxt) = cstr s.addMacTxt :=
    blit_length_of_le (by simp)
  have decrypted : (decrypt sgx blob).run w =
      .ok (⟨cstr s.addMacTxt, (cstr s.addMacTxt).length, plain, plain.length⟩, w) := by
    simp [decrypt, header, doc.mac_len _ _ _ _ _ genuine, doc.plain_len _ _ _ _ _ genuine,
      doc.unseal_seal _ _ _ _ _ genuine, restored, macTxt]
  rw [unsealing, run_bind_of_ok decrypted]
  simp [assertAddMacTxt]

theorem unsealing_fault {s : SealingUnsealing} {blob : Bytes} {w : World} {fault : Fault}
    (failed : (unsealing sgx s blob).run w = .error fault) :
    fault = .outOfBounds ∨ fault = .assertion := by
  rcases run_bind_error.mp failed with opening | ⟨unsealed, w1, _, rest⟩
  · unfold decrypt at opening
    split at opening
    · cases opening
      exact .inl rfl
    · dsimp only at opening
      split at opening
      · cases opening
      · cases opening
  · rcases run_bind_error.mp rest with checking | ⟨_, w2, _, final⟩
    · unfold assertAddMacTxt at checking
      dsimp only at checking
      split at checking
      · cases checking
        exact .inl rfl
      · split at checking
        · cases checking
          exact .inr rfl
        · cases checking
    · cases final

theorem unsealing_rejected {s : SealingUnsealing} {blob data : Bytes} {size : UInt16}
    {w w' : World} (rejected : sgx.unsealData blob = none)
    (returned : (unsealing sgx s blob).run w = .ok ((data, size), w')) :
    data = calloc (sgx.getEncryptTxtLen blob).toNat := by
  obtain ⟨unsealed, w1, decrypted, rest⟩ := run_bind_ok.mp returned
  obtain ⟨_, w2, _, final⟩ := run_bind_ok.mp rest
  cases final
  by_cases short : blob.length < sgx.headerSize
  · simp [decrypt, short] at decrypted
  · simp only [decrypt, short, ↓reduceIte, rejected] at decrypted
    cases decrypted
    rfl

end SeccapBank
