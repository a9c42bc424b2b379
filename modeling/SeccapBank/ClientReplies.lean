import SeccapBank.RequestAgreement
import SeccapBank.ServerReplies

set_option autoImplicit false

/- What the client makes of the server's replies, in a buffer that still holds the earlier
ones. -/
namespace SeccapBank

open CStrings Buffers Fallible Decimals Runs

def amountLine (amount : Int) : String := s!"<<現在の合計金額>> {amount} 円\n"

def tooBigLine : String := "引き出し金額が残高を超えています．もう一度試してください．\n"

def wrongPasswordLine : String := "パスワードが間違っています．もう一度ログインしてください．\n"

/-- The amounts are asked for with `deposit_print` set. -/
def Operation.depositPrint : Operation → Bool
  | .login .. => false
  | .deposit _ => true
  | .withdraw _ => true

/-- The replies that the server has for an operation. -/
def Operation.MayReceive : Operation → Reply → Prop
  | .login .., .loginSuccess _ => True
  | .login .., .loginFail => True
  | .deposit _, .balance _ => True
  | .withdraw _, .balance _ => True
  | .withdraw _, .tooBig => True
  | _, _ => False

/-- The replies to an operation whose `deposit_print` is set. -/
def Reply.depositPrint : Reply → Bool
  | .loginSuccess _ => false
  | .loginFail => false
  | .balance _ => true
  | .tooBig => true

/-- What the client prints for a reply. -/
def Reply.lines (preAmount : UInt64) : Reply → List String
  | .loginSuccess deposits => [amountLine deposits.toInt64.toInt]
  | .loginFail => [amountLine 0, wrongPasswordLine, "\n"]
  | .balance deposits => [amountLine deposits.toInt64.toInt, "\n"]
  | .tooBig => [tooBigLine, amountLine preAmount.toInt64.toInt, "\n"]

/-- Only a balance is kept as `pre_amount`. -/
def Reply.preAmount (old : UInt64) : Reply → UInt64
  | .balance deposits => deposits
  | _ => old

/-- Only a refused login takes `login` back. -/
def Reply.loginAfter (old : Bool) : Reply → Bool
  | .loginFail => false
  | _ => old

/-- The client behind the exchange that brought it a reply. -/
def Client.told (c : Client) (reply : Reply) (bytes : Bytes) : Client where
  sendInfo := c.sendInfo
  receiveData := blit c.receiveData bytes
  login := reply.loginAfter c.login
  preAmount := reply.preAmount c.preAmount
  sends := c.sends ++ [c.sendInfo]
  console := c.console ++ reply.lines c.preAmount

variable {c c' : Client} {op : Operation} {reply : Reply} {bytes : Bytes}

theorem Operation.MayReceive.depositPrint (kind : op.MayReceive reply) :
    op.depositPrint = reply.depositPrint := by
  cases op <;> cases reply <;> first | rfl | cases kind

/-- Behind its text a printed reply has a NUL, and a literal goes on in the old content. -/
theorem Reply.Written.begins (written : reply.Written bytes) (old : Bytes) :
    ∃ rest, blit old bytes = reply.text ++ rest ∧
      (reply.sendDataSize ≠ none → rest.head? = some 0) := by
  unfold Reply.Written at written
  cases sized : reply.sendDataSize with
  | none =>
      rw [sized] at written
      exact ⟨old.drop bytes.length, congrArg (· ++ old.drop bytes.length) written, absurd rfl⟩
  | some size =>
      rw [sized] at written
      obtain ⟨rest, same, _⟩ := written
      refine ⟨0 :: (rest ++ old.drop bytes.length), ?_, fun _ => rfl⟩
      exact (congrArg (· ++ old.drop bytes.length) same).trans (List.append_assoc ..)

theorem Reply.Written.string (written : reply.Written bytes)
    (printed : reply.sendDataSize ≠ none) (old : Bytes) : cstr (blit old bytes) = reply.text := by
  obtain ⟨rest, buffer, stop⟩ := written.begins old
  have nulFree : (0 : UInt8) ∉ reply.text := by
    have digits (n : Int) : (0 : UInt8) ∉ printLong n := printLong_free (by decide) (by decide) n
    cases reply with
    | loginSuccess deposits =>
        rw [Reply.text, List.mem_append, not_or]
        exact ⟨by decide, digits _⟩
    | loginFail => decide
    | balance deposits => exact digits _
    | tooBig => decide
  obtain ⟨tail, rfl⟩ := List.head?_eq_some_iff.mp (stop printed)
  rw [buffer, cstr_append_nul nulFree]

theorem Reply.Written.keyword (written : reply.Written bytes)
    (printed : reply.sendDataSize ≠ none) {old keyword : Bytes} (nulFree : (0 : UInt8) ∉ keyword) :
    keyword <+: blit old bytes ↔ keyword <+: reply.text := by
  rw [← prefix_cstr nulFree, written.string printed]

/-- A keyword with a letter that no printed reply has is in none of them. -/
theorem keyword_unprinted (written : reply.Written bytes) (printed : reply.sendDataSize ≠ none)
    {keyword : Bytes} (nulFree : (0 : UInt8) ∉ keyword) {letter : UInt8} (member : letter ∈ keyword)
    (foreign : letter ∉ ascii "login" ∧ letter ≠ 45 ∧ isDigit letter = false) (old : Bytes) :
    ¬ keyword <+: blit old bytes := by
  rw [written.keyword printed nulFree]
  have absent (n : Int) : letter ∉ printLong n := printLong_free foreign.2.1 foreign.2.2 n
  intro begins
  have inside := begins.subset member
  cases reply with
  | loginSuccess deposits =>
      rcases List.mem_append.mp inside with label | digits
      · exact foreign.1 label
      · exact absent _ digits
  | loginFail => exact printed rfl
  | balance deposits => exact absent _ inside
  | tooBig => exact printed rfl

/-- Every login reply begins with the same word, whether it grants or refuses. -/
theorem login_keyword (written : reply.Written bytes) (old : Bytes) :
    ascii "login" <+: blit old bytes ↔
      reply = .loginFail ∨ ∃ deposits, reply = .loginSuccess deposits := by
  cases reply with
  | loginSuccess deposits =>
      rw [written.keyword nofun (by decide)]
      exact iff_of_true (List.prefix_append _ _) (.inr ⟨deposits, rfl⟩)
  | loginFail =>
      obtain rfl : bytes = ascii "login fail." := written
      refine iff_of_true ?_ (.inl rfl)
      exact (show ascii "login" <+: ascii "login fail." by decide).trans (List.prefix_append _ _)
  | balance deposits =>
      rw [written.keyword nofun (by decide)]
      refine iff_of_false ?_ (by simp)
      intro begins
      have letter : (108 : UInt8) ∈ printLong deposits.toInt64.toInt := begins.subset (by decide)
      exact printLong_free (by decide) (by decide) _ letter
  | tooBig =>
      obtain rfl : bytes = ascii "too big." := written
      exact iff_of_false (keywords_apart (List.prefix_append _ _) (by decide)) (by simp)

theorem tooBig_keyword (written : reply.Written bytes) (old : Bytes) :
    ascii "too big." <+: blit old bytes ↔ reply = .tooBig := by
  have letter : (116 : UInt8) ∈ ascii "too big." := by decide
  cases reply with
  | loginSuccess deposits =>
      exact iff_of_false (keyword_unprinted written nofun (by decide) letter (by decide) old) nofun
  | loginFail =>
      obtain rfl : bytes = ascii "login fail." := written
      exact iff_of_false (keywords_apart (List.prefix_append _ _) (by decide)) nofun
  | balance deposits =>
      exact iff_of_false (keyword_unprinted written nofun (by decide) letter (by decide) old) nofun
  | tooBig =>
      obtain rfl : bytes = ascii "too big." := written
      exact iff_of_true (List.prefix_append _ _) rfl

theorem loginFail_keyword (written : reply.Written bytes) (old : Bytes) :
    ascii "login fail." <+: blit old bytes ↔ reply = .loginFail := by
  have letter : (32 : UInt8) ∈ ascii "login fail." := by decide
  cases reply with
  | loginSuccess deposits =>
      exact iff_of_false (keyword_unprinted written nofun (by decide) letter (by decide) old) nofun
  | loginFail =>
      obtain rfl : bytes = ascii "login fail." := written
      exact iff_of_true (List.prefix_append _ _) rfl
  | balance deposits =>
      exact iff_of_false (keyword_unprinted written nofun (by decide) letter (by decide) old) nofun
  | tooBig =>
      obtain rfl : bytes = ascii "too big." := written
      exact iff_of_false (keywords_apart (List.prefix_append _ _) (by decide)) nofun

/-- The three comparisons of the client, as what they tell of a reply. -/
structure Compared (reply : Reply) (receiveData : Bytes) : Prop where
  login : strncmp 5 receiveData (ascii "login") = 0 ↔
    reply = .loginFail ∨ ∃ deposits, reply = .loginSuccess deposits
  tooBig : strncmp 8 receiveData (ascii "too big.") = 0 ↔ reply = .tooBig
  loginFail : strncmp 11 receiveData (ascii "login fail.") = 0 ↔ reply = .loginFail

theorem compared (written : reply.Written bytes) (old : Bytes) :
    Compared reply (blit old bytes) where
  login := by
    rw [strncmp_symm, ← login_keyword written old]
    exact strncmp_keyword (show (0 : UInt8) ∉ ascii "login" by decide)
  tooBig := by
    rw [strncmp_symm, ← tooBig_keyword written old]
    exact strncmp_keyword (show (0 : UInt8) ∉ ascii "too big." by decide)
  loginFail := by
    rw [strncmp_symm, ← loginFail_keyword written old]
    exact strncmp_keyword (show (0 : UInt8) ∉ ascii "login fail." by decide)

theorem amountOf_fits {deposits : UInt64} (fits : (printLong deposits.toInt64.toInt).length < 8)
    {rest : Bytes} (stop : rest.head? = some 0) :
    amountOf (printLong deposits.toInt64.toInt ++ rest) = deposits := by
  have nul : ∀ b ∈ rest.head?, isDigit b = false := by
    intro b member
    rw [stop] at member
    cases member
    rfl
  rw [amountOf_printLong deposits nul]
  apply (wireAmount_eq_iff deposits).mpr
  have digits := printLong_fits.mp fits
  omega

/-- What the client reads is the number that the server printed, behind the label of a
login reply or at the front of the others. -/
theorem loginSuccess_amount {deposits : UInt64}
    (written : (Reply.loginSuccess deposits).Written bytes) (old : Bytes) :
    amountOf ((blit old bytes).drop 5) = deposits := by
  obtain ⟨rest, buffer, stop⟩ := written.begins old
  obtain ⟨_, same, length⟩ := written
  have label : (ascii "login").length = 5 := by decide
  have fits : (printLong deposits.toInt64.toInt).length < 8 := by
    rw [same, List.length_append, Reply.text, List.length_append, label, List.length_cons] at length
    omega
  rw [buffer, Reply.text, List.append_assoc, List.drop_left' label]
  exact amountOf_fits fits (stop nofun)

theorem balance_amount {deposits : UInt64} (written : (Reply.balance deposits).Written bytes)
    (old : Bytes) : amountOf (blit old bytes) = deposits := by
  obtain ⟨rest, buffer, stop⟩ := written.begins old
  rw [buffer]
  exact amountOf_fits written.balance_text.2 (stop nofun)

theorem atoi_toInt {text : Bytes} {deposits : UInt64} (read : amountOf text = deposits) :
    (atoi text).toInt = deposits.toInt64.toInt := by
  rw [← read]
  exact (Int32.toInt_toInt64 (atoi text)).symm

theorem atoi_fail (rest : Bytes) : (atoi ((ascii "login fail." ++ rest).drop 5)).toInt = 0 := by
  have bytes : ascii "login fail." = [108, 111, 103, 105, 110, 32, 102, 97, 105, 108, 46] := by
    decide
  rw [bytes]
  rfl

theorem loginAmount_run {receiveData : Bytes} {amount : Int}
    (begins : strncmp 5 receiveData (ascii "login") = 0)
    (read : (atoi (receiveData.drop 5)).toInt = amount) (c : Client) :
    (loginAmount receiveData).run c =
      .ok ((), { c with console := c.console ++ [amountLine amount] }) := by
  rw [loginAmount, if_pos begins, read]
  rfl

theorem loginAmount_other {receiveData : Bytes}
    (other : strncmp 5 receiveData (ascii "login") ≠ 0) (c : Client) :
    (loginAmount receiveData).run c = .ok ((), c) := by
  rw [loginAmount, if_neg other]
  rfl

theorem display_append (line : String) (c : Client) (lines : List String) :
    (display line).run { c with console := c.console ++ lines } =
      .ok ((), { c with console := c.console ++ (lines ++ [line]) }) := by
  rw [← List.append_assoc]
  rfl

theorem tooBig_run (c : Client) : tooBig.run c = .ok ((), { c with
    console := c.console ++ [tooBigLine, amountLine c.preAmount.toInt64.toInt, "\n"] }) := by
  rw [tooBig, run_bind_of_ok (display_run _ c)]
  rw [run_bind_of_ok (get_run _), displayAmount, run_bind_of_ok (display_append _ c _)]
  exact display_append _ c _

theorem loginFail_run (c : Client) : loginFail.run c = .ok ((), { c with
    login := false, console := c.console ++ [wrongPasswordLine, "\n"] }) := by
  rw [loginFail, run_bind_of_ok (display_run _ c)]
  exact display_append _ { c with login := false } _

theorem depositAmount_run {receiveData : Bytes} {deposits : UInt64}
    (read : amountOf receiveData = deposits) (c : Client) :
    (depositAmount receiveData).run c = .ok ((), { c with
      preAmount := deposits
      console := c.console ++ [amountLine deposits.toInt64.toInt, "\n"] }) := by
  have kept : (atoi receiveData).toInt64.toUInt64 = deposits := read
  rw [depositAmount, atoi_toInt read, displayAmount, run_bind_of_ok (display_run _ c), kept]
  exact display_append _ { c with preAmount := deposits } _

/-- What the client makes of a reply of the kind that it waits for. -/
theorem exchange_told (written : reply.Written bytes) (bound : bytes.length ≤ transferSize)
    (c : Client) :
    (exchange reply.depositPrint (.received bytes bound)).run c = .ok ((), c.told reply bytes) := by
  have tests := compared written c.receiveData
  let heard : Client :=
    { c with sends := c.sends ++ [c.sendInfo], receiveData := blit c.receiveData bytes }
  have entered : (exchange reply.depositPrint (.received bytes bound)).run c =
      (answer reply.depositPrint).run heard := rfl
  rw [entered, answer, run_bind_of_ok (get_run heard)]
  show (loginAmount (blit c.receiveData bytes) >>= fun _ => _).run heard = _
  cases reply with
  | loginSuccess deposits =>
      have shown := loginAmount_run (tests.login.mpr (.inr ⟨deposits, rfl⟩))
        (atoi_toInt (loginSuccess_amount written c.receiveData)) heard
      have notTooBig := tests.tooBig.not.mpr nofun
      have notFail := tests.loginFail.not.mpr nofun
      rw [run_bind_of_ok shown, if_neg notTooBig, if_neg (fun both => notFail both.1)]
      rfl
  | loginFail =>
      obtain rfl : bytes = ascii "login fail." := written
      have shown := loginAmount_run (tests.login.mpr (.inl rfl)) (atoi_fail _) heard
      have notTooBig := tests.tooBig.not.mpr nofun
      have fail := tests.loginFail.mpr rfl
      rw [run_bind_of_ok shown, if_neg notTooBig, if_pos ⟨fail, rfl⟩, loginFail_run]
      simp only [List.append_assoc]
      rfl
  | balance deposits =>
      have silent := loginAmount_other (tests.login.not.mpr (by simp)) heard
      have notTooBig := tests.tooBig.not.mpr nofun
      have notFail := tests.loginFail.not.mpr nofun
      have shown := depositAmount_run (balance_amount written c.receiveData) heard
      rw [run_bind_of_ok silent, if_neg notTooBig, if_neg (fun both => notFail both.1)]
      exact shown
  | tooBig =>
      have silent := loginAmount_other (tests.login.not.mpr (by simp)) heard
      rw [run_bind_of_ok silent, if_pos (tests.tooBig.mpr rfl)]
      exact tooBig_run heard

theorem Reply.Written.bound (written : reply.Written bytes) : bytes.length ≤ transferSize := by
  have size : transferSize = 1024 := rfl
  cases reply with
  | loginSuccess deposits =>
      obtain ⟨_, _, length⟩ := written
      omega
  | loginFail =>
      obtain rfl : bytes = _ := written
      decide
  | balance deposits =>
      obtain ⟨_, _, length⟩ := written
      omega
  | tooBig =>
      obtain rfl : bytes = _ := written
      decide

/-- The server prints a balance behind a label, and the client that receives the array
parses it, whatever the stack held and whatever was received before. -/
def ReplySurvives (size : Nat) (label : Bytes) (depositPrint : Bool) (deposits : UInt64) : Prop :=
  ∀ (stack : Stack) (s : Server) (c : Client), ∃ s' bytes bound c',
    (writeDeposits stack size label deposits).run s = .ok ((), s') ∧ s'.sent = s.sent ++ [bytes] ∧
      (exchange depositPrint (.received bytes bound)).run c = .ok ((), c') ∧
        amountOf (c'.receiveData.drop label.length) = deposits

/-- The login reply, and the reply to deposits and withdrawals. -/
structure BalanceSurvives (deposits : UInt64) : Prop where
  login : ReplySurvives 13 (ascii "login") false deposits
  money : ReplySurvives 8 [] true deposits

/-- A printed reply survives exactly when the number leaves room for the NUL. -/
theorem reply_survives_iff {size : Nat} {label : Bytes} {deposits : UInt64}
    (text : reply.text = label ++ printLong deposits.toInt64.toInt)
    (sized : reply.sendDataSize = some size) (room : size = label.length + 8)
    (read : ∀ bytes old, reply.Written bytes →
      amountOf ((blit old bytes).drop label.length) = deposits) :
    ReplySurvives size label reply.depositPrint deposits ↔
      deposits.toNat < 10 ^ 7 ∨ 2 ^ 64 - 10 ^ 6 < deposits.toNat := by
  rw [← printLong_fits]
  constructor
  · intro survives
    obtain ⟨_, _, _, _, returned, _⟩ := survives cleanStack openServer zeroedClient
    have fits := (writeDeposits_ok.mp returned).1
    rw [List.length_append] at fits
    omega
  · intro short stack s c
    have fits : reply.Fits := by
      intro other same
      cases sized.symm.trans same
      rw [text, List.length_append]
      omega
    obtain ⟨s', returned, _, bytes, written, sent⟩ := writeDeposits_fits reply text sized fits s
    exact ⟨s', bytes, written.bound, _, returned, sent, exchange_told written written.bound c,
      read bytes c.receiveData written⟩

/-- A balance survives exactly below 10^7, and from 10^6 below 2^64 on, where it is printed
with a sign. -/
theorem balance_survives_iff (deposits : UInt64) :
    BalanceSurvives deposits ↔
      deposits.toNat < 10 ^ 7 ∨ 2 ^ 64 - 10 ^ 6 < deposits.toNat := by
  have login := @reply_survives_iff (.loginSuccess deposits) 13 (ascii "login") deposits rfl rfl rfl
    fun bytes old written => loginSuccess_amount written old
  have money := @reply_survives_iff (.balance deposits) 8 [] deposits rfl rfl rfl
    fun bytes old written => balance_amount written old
  constructor
  · exact fun survives => login.mp survives.login
  · exact fun digits => ⟨login.mpr digits, money.mpr digits⟩

/-- A balance of 10^7 is printed behind the end of both arrays. -/
theorem balance_overflows :
    (writeDeposits cleanStack 13 (ascii "login") 10000000).run openServer = .error .outOfBounds ∧
      (writeDeposits cleanStack 8 [] 10000000).run openServer = .error .outOfBounds ∧
        ¬ BalanceSurvives 10000000 := by
  have login : (writeDeposits cleanStack 13 (ascii "login") 10000000).run openServer =
      .error .outOfBounds := by
    decide +kernel
  refine ⟨login, by decide +kernel, fun survives => ?_⟩
  obtain ⟨_, _, _, _, returned, _⟩ := survives.login cleanStack openServer zeroedClient
  cases login.symm.trans returned

end SeccapBank
