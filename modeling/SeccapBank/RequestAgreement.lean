import SeccapBank.ClientRequests
import SeccapBank.RequestText
import SeccapBank.Server

set_option autoImplicit false

/- What the server makes of the messages of a client session. The client sends its whole
buffer, so a message carries what earlier texts left behind the newest one. -/
namespace SeccapBank

open CStrings Buffers Fallible Decimals

def Operation.entry : Operation → MenuEntry
  | .login name password => .authentication name password
  | .deposit amount => .deposit amount
  | .withdraw amount => .withdrawal amount

/-- The request that the user means by an operation. -/
def Operation.request : Operation → Request
  | .login name password => .login ⟨name.bytes, name.nulFree⟩ ⟨password.bytes, password.nulFree⟩
  | .deposit amount => .deposit amount
  | .withdraw amount => .withdraw amount

/-- Words without separators that fit their arrays, and amounts that an int holds. -/
def Operation.Plain : Operation → Prop
  | .login name password => (name.bytes.length < 100 ∧ comma ∉ name.bytes) ∧
      password.bytes.length < 100 ∧ comma ∉ password.bytes
  | .deposit amount => amount.toNat < 2 ^ 31
  | .withdraw amount => amount.toNat < 2 ^ 31

variable {c : Client} {op : Operation}

theorem Operation.Plain.readable (plain : op.Plain) : op.Readable := by
  cases op with
  | login name password => exact ⟨plain.1.1, plain.2.1⟩
  | deposit amount => trivial
  | withdraw amount => trivial

/-- What arrives of an amount: its low 32 bits, as a signed number. -/
def wireAmount (amount : UInt64) : UInt64 := amount.toInt64.toInt32.toInt64.toUInt64

/-- `%ld` prints an amount as a signed number, and `atoi` keeps the low half of it. -/
theorem amountOf_printLong (amount : UInt64) {rest : Bytes}
    (stop : ∀ b ∈ rest.head?, isDigit b = false) :
    amountOf (printLong amount.toInt64.toInt ++ rest) = wireAmount amount := by
  have low := amount.toInt64.le_toInt
  have high := amount.toInt64.toInt_lt
  have read : atoi (printLong amount.toInt64.toInt ++ rest) = amount.toInt64.toInt32 := by
    rw [atoi_printLong low high stop, Int32.ofInt_int64ToInt]
  rw [amountOf, read]
  rfl

/-- The low 32 bits are taken for a negative number when their first bit is set. -/
theorem wireAmount_toNat (amount : UInt64) : (wireAmount amount).toNat =
    if amount.toNat % 2 ^ 32 < 2 ^ 31 then amount.toNat % 2 ^ 32
    else 2 ^ 64 - 2 ^ 32 + amount.toNat % 2 ^ 32 := by
  have bound := amount.toNat_lt
  have arrived := (wireAmount amount).toNat_lt
  have number := toInt64_toInt (wireAmount amount)
  have low : (wireAmount amount).toInt64.toInt = amount.toInt64.toInt.bmod (2 ^ 32) := by
    rw [show (wireAmount amount).toInt64 = amount.toInt64.toInt32.toInt64 from rfl,
      Int32.toInt_toInt64, Int64.toInt_toInt32]
  rw [low, toInt64_toInt, Int.bmod_def] at number
  split
  · omega
  · omega

/-- An amount arrives whole exactly when its low 32 bits, as a signed number, are all of it. -/
theorem wireAmount_eq_iff (amount : UInt64) :
    wireAmount amount = amount ↔ amount.toNat < 2 ^ 31 ∨ 2 ^ 64 - 2 ^ 31 ≤ amount.toNat := by
  have bound := amount.toNat_lt
  rw [← UInt64.toNat_inj, wireAmount_toNat]
  split
  · omega
  · omega

/-- The request that arrives of an operation. -/
def Operation.delivered : Operation → Request
  | .login name password => .login ⟨name.bytes, name.nulFree⟩ ⟨password.bytes, password.nulFree⟩
  | .deposit amount => .deposit (wireAmount amount)
  | .withdraw amount => .withdraw (wireAmount amount)

theorem Operation.Plain.delivered (plain : op.Plain) : op.delivered = op.request := by
  cases op with
  | login name password => rfl
  | deposit amount => exact congrArg Request.deposit ((wireAmount_eq_iff amount).mpr (.inl plain))
  | withdraw amount => exact congrArg Request.withdraw ((wireAmount_eq_iff amount).mpr (.inl plain))

/-- Words without separators. -/
def Operation.Separated : Operation → Prop
  | .login name password => comma ∉ name.bytes ∧ comma ∉ password.bytes
  | .deposit _ => True
  | .withdraw _ => True

theorem Operation.Plain.separated (plain : op.Plain) : op.Separated := by
  cases op with
  | login name password => exact ⟨plain.1.2, plain.2.2⟩
  | deposit amount => trivial
  | withdraw amount => trivial

/-- The number of a money operation, as a field of the split. -/
def amountField (amount : UInt64) : Field where
  bytes := printLong amount.toInt64.toInt
  nulFree := printLong_free (by decide) (by decide) _
  commaFree := printLong_free (by decide) (by decide) _

theorem amountField_read (amount : UInt64) :
    amountOf (amountField amount).bytes = wireAmount amount := by
  have number := @amountOf_printLong amount [] nofun
  rwa [List.append_nil] at number

/-- The text of an operation is a request text, and asks for what arrives of it. -/
theorem Operation.Separated.requestText (separated : op.Separated) :
    ∃ text : RequestText, text.bytes = op.text ∧ text.request = op.delivered := by
  have separator : ascii "," = [comma] := by decide
  have joined (keyword digits : Bytes) : [keyword, digits].flatMap (· ++ [comma]) =
      keyword ++ [comma] ++ digits ++ [comma] := by
    simp only [List.flatMap_cons, List.flatMap_nil, List.append_nil, List.append_assoc]
  cases op with
  | login name password =>
      obtain ⟨named, given⟩ := separated
      refine ⟨.login ⟨_, name.nulFree, named⟩ ⟨_, password.nulFree, given⟩, ?_, rfl⟩
      have keyword : ascii "login," = ascii "login" ++ [comma] := by decide
      simp only [RequestText.bytes, RequestText.fields, Operation.text, loginText, keyword,
        separator, List.flatMap_cons, List.flatMap_nil, List.append_nil, List.append_assoc]
  | deposit amount =>
      have keyword : ascii "deposit," = ascii "deposit" ++ [comma] := by decide
      refine ⟨.deposit (amountField amount), ?_, congrArg Request.deposit (amountField_read amount)⟩
      rw [Operation.text, depositText, keyword, separator]
      exact joined _ _
  | withdraw amount =>
      have keyword : ascii "withdraw," = ascii "withdraw" ++ [comma] := by decide
      refine ⟨.withdraw (amountField amount), ?_,
        congrArg Request.withdraw (amountField_read amount)⟩
      rw [Operation.text, withdrawText, keyword, separator]
      exact joined _ _

theorem printed_parts (sendInfo : Bytes) (op : Operation) :
    printed sendInfo op = op.text ++ 0 :: sendInfo.drop (op.text.length + 1) := by
  rw [printed, blit, List.length_append, List.length_singleton, List.append_assoc]
  rfl

/-- What the server makes of a message whose words have no separator: the operation as it
arrives, as long as there are at most three commas in its text and behind the NUL of it. -/
theorem requestOf_message {sendInfo : Bytes} (sized : sendInfo.length = transferSize)
    (readable : op.Readable) (separated : op.Separated) :
    requestOf (printed sendInfo op) =
      if op.text.count comma + (sendInfo.drop (op.text.length + 1)).count comma ≤ 3 then
        .ok op.delivered
      else .error .outOfBounds := by
  obtain ⟨text, bytes, request⟩ := separated.requestText
  have whole : (printed sendInfo op).length = receiveBufSize := printed_length sized readable
  have parts : printed sendInfo op = text.bytes ++ 0 :: sendInfo.drop (op.text.length + 1) := by
    rw [printed_parts, bytes]
  have commas : op.text.count comma = text.fields.length := by
    have counted := text.count_comma []
    rwa [List.append_nil, bytes, List.count_nil, Nat.add_zero] at counted
  have behind : (0 :: sendInfo.drop (op.text.length + 1)).count comma =
      (sendInfo.drop (op.text.length + 1)).count comma := List.count_cons_of_ne (by decide)
  have asked := requestOf_text text (by rw [← parts]; exact whole)
  rwa [← parts, behind, ← commas, request] at asked

theorem separated_of_taken {sendInfo : Bytes} (sized : sendInfo.length = transferSize)
    (readable : op.Readable) {request : Request}
    (taken : requestOf (printed sendInfo op) = .ok request) : op.Separated := by
  have few := (requestOf_commas (printed_length sized readable) taken).2
  rw [printed_parts, List.count_append] at few
  cases op with
  | login name password =>
      have parts : (ascii "login,").count comma = 1 ∧ (ascii ",").count comma = 1 := by decide
      simp only [Operation.text, loginText, List.count_append, parts] at few
      have none : name.bytes.count comma = 0 ∧ password.bytes.count comma = 0 := by omega
      exact ⟨List.count_eq_zero.mp none.1, List.count_eq_zero.mp none.2⟩
  | deposit amount => trivial
  | withdraw amount => trivial

theorem requestOf_zeroed (readable : op.Readable) (separated : op.Separated) :
    requestOf (printed (calloc transferSize) op) = .ok op.delivered := by
  obtain ⟨text, bytes, request⟩ := separated.requestText
  have behind : ((calloc transferSize).drop (op.text.length + 1)).count comma = 0 := by
    apply List.count_eq_zero.mpr
    intro member
    have zero := mem_calloc (List.mem_of_mem_drop member)
    revert zero
    decide
  have commas := text.count_comma []
  rw [List.append_nil, bytes, List.count_nil, Nat.add_zero] at commas
  have few := text.fields_le
  rw [requestOf_message (calloc_length _) readable separated, behind, commas, Nat.add_zero,
    if_pos few]

/-- The server takes the operation from this message, received whole. -/
def Understood (op : Operation) (message : Bytes) : Prop :=
  ∃ chunk : Chunk, chunk.bytes = message ∧ requestOf chunk.buf = .ok op.request

/-- A message is understood exactly when there are at most three commas in its text and
behind the NUL of its text. -/
theorem understood_iff {sendInfo : Bytes} (sized : sendInfo.length = transferSize)
    (plain : op.Plain) :
    Understood op (printed sendInfo op) ↔
      op.text.count comma + (sendInfo.drop (op.text.length + 1)).count comma ≤ 3 := by
  have whole : (printed sendInfo op).length = receiveBufSize := printed_length sized plain.readable
  have asked := requestOf_message sized plain.readable plain.separated
  rw [plain.delivered] at asked
  constructor
  · rintro ⟨chunk, same, found⟩
    by_contra beyond
    rw [Chunk.buf_whole (by rw [same, whole]), same, asked, if_neg beyond] at found
    cases found
  · intro fits
    refine ⟨.ofWhole _ whole, rfl, ?_⟩
    rw [Chunk.buf_whole whole]
    show requestOf (printed sendInfo op) = _
    rw [asked, if_pos fits]

/-- At every operation of a session, the commas of its text and those that the buffer
still holds behind the NUL of the text are at most three. -/
def CommasFit : Bytes → List Operation → Prop
  | _, [] => True
  | sendInfo, op :: rest =>
      op.text.count comma + (sendInfo.drop (op.text.length + 1)).count comma ≤ 3 ∧
        CommasFit (printed sendInfo op) rest

/-- The server takes every operation of the session, and just that, from its message. -/
def Agreement (c : Client) (steps : List (Operation × Exchange)) : Prop :=
  ∃ left c' sent,
    (clientMain (steps.map fun step => (step.1.entry, step.2))).run c = .ok (left, c') ∧
    c'.sends = c.sends ++ sent ∧ List.Forall₂ Understood (steps.map Prod.fst) sent

theorem Operation.entry_operation (op : Operation) : op.entry.operation = some op := by
  cases op <;> rfl

theorem Operation.entry_stays (op : Operation) : op.entry ≠ .quit := by
  cases op <;> nofun

theorem beforeQuit_operations (steps : List (Operation × Exchange)) :
    beforeQuit (steps.map fun step => (step.1.entry, step.2)) =
      (steps.map Prod.fst).map Operation.entry := by
  induction steps with
  | nil => rfl
  | cons step steps ih =>
      rw [List.map_cons, beforeQuit_cons step.1.entry_stays, ih]
      rfl

theorem all_understood_iff {sendInfo : Bytes} (sized : sendInfo.length = transferSize)
    {ops : List Operation} (plain : ∀ op ∈ ops, op.Plain) :
    List.Forall₂ Understood ops (messages sendInfo (ops.map Operation.entry)) ↔
      CommasFit sendInfo ops := by
  induction ops generalizing sendInfo with
  | nil => exact iff_of_true .nil trivial
  | cons op ops ih =>
      have first := plain op (List.mem_cons_self ..)
      have buffer : formatted sendInfo op.entry = printed sendInfo op := by
        rw [formatted, op.entry_operation]
      rw [List.map_cons, messages, List.forall₂_cons, buffer, understood_iff sized first,
        ih (printed_length sized first.readable) fun other member =>
          plain other (List.mem_cons_of_mem _ member)]
      rfl

/-- The session returns, so that the messages alone decide. -/
theorem agreement_messages (sized : c.sendInfo.length = transferSize)
    {steps : List (Operation × Exchange)} (plain : ∀ op ∈ steps.map Prod.fst, op.Plain) :
    Agreement c steps ↔ List.Forall₂ Understood (steps.map Prod.fst)
      (messages c.sendInfo ((steps.map Prod.fst).map Operation.entry)) := by
  have readable : ∀ entry ∈ beforeQuit (steps.map fun step => (step.1.entry, step.2)),
      ∀ op ∈ entry.operation, op.Readable := by
    intro entry member op listed
    rw [beforeQuit_operations] at member
    obtain ⟨other, inside, rfl⟩ := List.mem_map.mp member
    rw [other.entry_operation] at listed
    cases listed
    exact (plain _ inside).readable
  have fits : ∀ entry ∈ beforeQuit (steps.map fun step => (step.1.entry, step.2)), entry.Fits := by
    intro entry member
    rw [beforeQuit_operations] at member
    obtain ⟨other, _, rfl⟩ := List.mem_map.mp member
    exact operation_fits (Option.isSome_iff_exists.mpr ⟨other, other.entry_operation⟩)
  obtain ⟨left, c', returned, sends⟩ := clientMain_run sized fits readable
  rw [beforeQuit_operations] at sends
  constructor
  · rintro ⟨_, c'', sent, again, sends', understood⟩
    rw [returned] at again
    cases again
    rwa [List.append_cancel_left (sends'.symm.trans sends)] at understood
  · intro understood
    exact ⟨left, c', _, returned, sends, understood⟩

/-- Client and server agree on a whole session if and only if the commas fit at every
operation of it. -/
theorem agreement_iff (sized : c.sendInfo.length = transferSize)
    {steps : List (Operation × Exchange)} (plain : ∀ op ∈ steps.map Prod.fst, op.Plain) :
    Agreement c steps ↔ CommasFit c.sendInfo (steps.map Prod.fst) := by
  rw [agreement_messages sized plain, all_understood_iff sized plain]

def zeroedClient : Client := freshClient (calloc transferSize) (calloc transferSize)

/-- A buffer that still holds the rest of an earlier text behind its NUL. -/
def usedClient : Client :=
  freshClient (blit (calloc transferSize) (ascii "deposit,12345,")) (calloc transferSize)

/-- Amounts of different lengths, and a login behind them, over an earlier text. -/
def plainSession : List (Operation × Exchange) :=
  [(.deposit 5, emptyReply), (.withdraw 12, emptyReply), (.deposit 123456, emptyReply),
    (.login alice secret, emptyReply)]

/-- The old texts leave a comma behind some of the newer ones, and never two. -/
theorem plain_session_agreement : Agreement usedClient plainSession := by
  refine (agreement_iff (by decide +kernel) ?_).mpr ?_
  · intro op member
    simp only [plainSession, List.map_cons, List.map_nil, List.mem_cons, List.not_mem_nil,
      or_false] at member
    rcases member with rfl | rfl | rfl | rfl
    · exact show (5 : UInt64).toNat < 2 ^ 31 by decide
    · exact show (12 : UInt64).toNat < 2 ^ 31 by decide
    · exact show (123456 : UInt64).toNat < 2 ^ 31 by decide
    · exact ⟨by decide, by decide⟩
  · exact ⟨by decide +kernel, by decide +kernel, by decide +kernel, by decide +kernel, trivial⟩

/-- A login and a deposit behind it, on zeroed buffers: the rest of the login text
brings the commas of the second message to four, and the split leaves its arrays. -/
theorem login_deposit_disagreement :
    ¬ Agreement zeroedClient [(.login alice secret, emptyReply), (.deposit 5, emptyReply)] := by
  have plain : ∀ op ∈ [(Operation.login alice secret, emptyReply), (.deposit 5, emptyReply)].map
      Prod.fst, op.Plain := by
    intro op member
    rcases List.mem_pair.mp member with rfl | rfl
    · exact ⟨by decide, by decide⟩
    · exact show (5 : UInt64).toNat < 2 ^ 31 by decide
  intro agreement
  have understood : List.Forall₂ Understood _ (messages (calloc transferSize) _) :=
    (agreement_messages (calloc_length _) plain).mp agreement
  obtain ⟨_, fits, _⟩ := (all_understood_iff (calloc_length _) plain).mp understood
  revert fits
  decide +kernel

end SeccapBank
