import SeccapBank.RequestText
import SeccapBank.Server

set_option autoImplicit false

/- The buffers that the server's parser survives, and the language that it accepts: it
looks at the beginning of a buffer and takes the fields as they come. -/
namespace SeccapBank

open CStrings Buffers Fallible Decimals

variable {sgx : Sgx} {stack : Stack} {s s' : Server} {buf first : Bytes} {data : List Bytes}
  {request : Request}

theorem strncmp_field (fields : Delimited.segments comma buf = first :: data) (keyword : Bytes)
    (nulFree : (0 : UInt8) ∉ keyword) (clean : comma ∉ keyword) :
    strncmp keyword.length keyword first = 0 ↔ keyword <+: buf := by
  obtain ⟨rest, rfl, _, _⟩ := Delimited.segments_eq_cons fields
  rw [strncmp_keyword nulFree, Delimited.prefix_field clean]

/-- The comparisons of the dispatcher, as what the buffer begins with. -/
structure Comparisons (buf first : Bytes) : Prop where
  login : strncmp 5 (ascii "login") first = 0 ↔ ascii "login" <+: buf
  deposit : strncmp 7 (ascii "deposit") first = 0 ↔ ascii "deposit" <+: buf
  withdraw : strncmp 8 (ascii "withdraw") first = 0 ↔ ascii "withdraw" <+: buf
  stop : strncmp 3 (ascii "end") buf = 0 ↔ ascii "end" <+: buf

theorem comparisons (fields : Delimited.segments comma buf = first :: data) :
    Comparisons buf first where
  login := strncmp_field fields (ascii "login") (by decide) (by decide)
  deposit := strncmp_field fields (ascii "deposit") (by decide) (by decide)
  withdraw := strncmp_field fields (ascii "withdraw") (by decide) (by decide)
  stop := strncmp_keyword (show (0 : UInt8) ∉ ascii "end" by decide)

theorem Dispatched.dispatch {buf : Bytes} {data : List Bytes} {request : Request}
    (dispatched : Dispatched buf data request) : SeccapBank.dispatch buf data = .ok request := by
  cases dispatched with
  | login keyword => simp [SeccapBank.dispatch, keyword]
  | deposit notLogin keyword => simp [SeccapBank.dispatch, notLogin, keyword]
  | withdraw notLogin notDeposit keyword =>
      simp [SeccapBank.dispatch, notLogin, notDeposit, keyword]
  | stop notLogin notDeposit notWithdraw keyword =>
      simp [SeccapBank.dispatch, notLogin, notDeposit, notWithdraw, keyword]
  | other notLogin notDeposit notWithdraw notEnd =>
      simp [SeccapBank.dispatch, notLogin, notDeposit, notWithdraw, notEnd]

/-- The split stays inside its three entries, and the dispatcher reads only entries that
the split has filled. -/
def ParserSafe (buf : Bytes) : Prop :=
  ∃ split request, splitReceived buf = .ok split ∧ dispatch buf split.data = .ok request

/-- As many commas as the branch of the keyword has fields, and at most three. -/
def CommasSuffice (buf : Bytes) : Prop :=
  (1 ≤ buf.count comma ∧ buf.count comma ≤ 3) ∧
    (ascii "login" <+: buf → 3 ≤ buf.count comma) ∧
      (ascii "deposit" <+: buf ∨ ascii "withdraw" <+: buf → 2 ≤ buf.count comma)

instance (buf : Bytes) : Decidable (CommasSuffice buf) := inferInstanceAs (Decidable (_ ∧ _))

theorem parserSafe_iff_requestOf : ParserSafe buf ↔ ∃ request, requestOf buf = .ok request := by
  unfold ParserSafe requestOf
  cases split : splitReceived buf with
  | error fault => simp
  | ok found => simp

/-- With enough commas the dispatcher takes one of its branches. -/
theorem dispatch_returns (fields : Delimited.segments comma buf = first :: data)
    (suffice : CommasSuffice buf) : ∃ request, Dispatched buf (first :: data) request := by
  obtain ⟨_, three, two⟩ := suffice
  have compare := comparisons fields
  have filled : data.length + 1 = buf.count comma := by
    rw [← Delimited.segments_length, fields]
    rfl
  rw [← compare.login] at three
  rw [← compare.deposit, ← compare.withdraw] at two
  by_cases login : strncmp 5 (ascii "login") first = 0
  · have enough := three login
    match data with
    | [] => simp only [List.length_nil] at filled; omega
    | [_] => simp only [List.length_singleton] at filled; omega
    | _ :: _ :: _ => exact ⟨_, .login login⟩
  · by_cases deposit : strncmp 7 (ascii "deposit") first = 0
    · have enough := two (.inl deposit)
      match data with
      | [] => simp only [List.length_nil] at filled; omega
      | _ :: _ => exact ⟨_, .deposit login deposit⟩
    · by_cases withdraw : strncmp 8 (ascii "withdraw") first = 0
      · have enough := two (.inr withdraw)
        match data with
        | [] => simp only [List.length_nil] at filled; omega
        | _ :: _ => exact ⟨_, .withdraw login deposit withdraw⟩
      · by_cases stop : strncmp 3 (ascii "end") buf = 0
        · exact ⟨_, .stop login deposit withdraw stop⟩
        · exact ⟨_, .other login deposit withdraw stop⟩

theorem dispatched_commas (fields : Delimited.segments comma buf = first :: data)
    (dispatched : Dispatched buf (first :: data) request) :
    (ascii "login" <+: buf → 3 ≤ buf.count comma) ∧
      (ascii "deposit" <+: buf ∨ ascii "withdraw" <+: buf → 2 ≤ buf.count comma) := by
  have compare := comparisons fields
  have filled := dispatched.fields
  rw [← fields, Delimited.segments_length] at filled
  rw [← compare.login, ← compare.deposit, ← compare.withdraw]
  cases dispatched with
  | login keyword => exact ⟨fun _ => filled, fun _ => Nat.le_of_succ_le filled⟩
  | deposit notLogin keyword => exact ⟨fun login => absurd login notLogin, fun _ => filled⟩
  | withdraw notLogin notDeposit keyword =>
      exact ⟨fun login => absurd login notLogin, fun _ => filled⟩
  | stop notLogin notDeposit notWithdraw keyword =>
      exact ⟨fun login => absurd login notLogin, fun money => money.elim
        (fun deposit => absurd deposit notDeposit) fun withdraw => absurd withdraw notWithdraw⟩
  | other notLogin notDeposit notWithdraw notEnd =>
      exact ⟨fun login => absurd login notLogin, fun money => money.elim
        (fun deposit => absurd deposit notDeposit) fun withdraw => absurd withdraw notWithdraw⟩

theorem commasSuffice_of_safe (whole : buf.length = receiveBufSize) (safe : ParserSafe buf) :
    CommasSuffice buf := by
  obtain ⟨request, taken⟩ := parserSafe_iff_requestOf.mp safe
  obtain ⟨some, three⟩ := requestOf_commas whole taken
  have one : 1 ≤ request.fields := by cases request <;> exact Nat.succ_le_succ (Nat.zero_le _)
  rw [requestOf_eq whole three] at taken
  cases fields : Delimited.segments comma buf with
  | nil =>
      have none := congrArg List.length fields
      rw [Delimited.segments_length, List.length_nil] at none
      omega
  | cons first data =>
      rw [fields] at taken
      exact ⟨⟨by omega, three⟩, dispatched_commas fields (dispatch_cases taken)⟩

theorem safe_of_commasSuffice (whole : buf.length = receiveBufSize) (suffice : CommasSuffice buf) :
    ParserSafe buf := by
  rw [parserSafe_iff_requestOf, requestOf_eq whole suffice.1.2]
  cases fields : Delimited.segments comma buf with
  | nil =>
      have none := congrArg List.length fields
      rw [Delimited.segments_length, List.length_nil] at none
      have one := suffice.1.1
      omega
  | cons first data =>
      obtain ⟨request, dispatched⟩ := dispatch_returns fields suffice
      exact ⟨request, dispatched.dispatch⟩

/-- The parser survives exactly the buffers with one to three commas that have all the
fields that their keyword asks for. -/
theorem parser_safe_iff (whole : buf.length = receiveBufSize) :
    ParserSafe buf ↔ CommasSuffice buf :=
  ⟨commasSuffice_of_safe whole, safe_of_commasSuffice whole⟩

/-- A login with the fewest commas that it takes. -/
theorem parser_safe_login : ParserSafe (ascii "login,a,p," ++ calloc 1014) :=
  (parser_safe_iff (by decide +kernel)).mpr (by decide +kernel)

/-- Four commas lead the split behind its arrays, and without one `data[0]` is NULL. -/
theorem parser_unsafe : ¬ ParserSafe (ascii "a,b,c,d," ++ calloc 1016) ∧
    ¬ ParserSafe (calloc receiveBufSize) := by
  have four : ¬ CommasSuffice (ascii "a,b,c,d," ++ calloc 1016) := by decide +kernel
  have none : ¬ CommasSuffice (calloc receiveBufSize) := by decide +kernel
  exact ⟨fun safe => four (commasSuffice_of_safe (by decide +kernel) safe),
    fun safe => none (commasSuffice_of_safe (calloc_length _) safe)⟩

/-- The ecall that a request is served with. -/
def Request.ecall : Request → Option Ecall
  | .login name password => some (.newAccount name password)
  | .deposit amount => some (.myDeposit amount)
  | .withdraw amount => some (.myWithdraw amount)
  | .stop => none
  | .other => none

theorem requestOf_dispatched (whole : buf.length = receiveBufSize)
    (taken : requestOf buf = .ok request) :
    ∃ first data, Delimited.segments comma buf = first :: data ∧
      Dispatched buf (first :: data) request := by
  have three := (requestOf_commas whole taken).2
  rw [requestOf_eq whole three] at taken
  have dispatched := dispatch_cases taken
  cases fields : Delimited.segments comma buf with
  | nil =>
      rw [fields] at dispatched
      cases dispatched
  | cons first data =>
      rw [fields] at dispatched
      exact ⟨first, data, rfl, dispatched⟩

/-- The end command is a buffer that begins with it. -/
theorem stop_iff (whole : buf.length = receiveBufSize) (taken : requestOf buf = .ok request) :
    request = .stop ↔ ascii "end" <+: buf := by
  obtain ⟨first, data, fields, dispatched⟩ := requestOf_dispatched whole taken
  have compare := comparisons fields
  have apart (keyword : Bytes) (alone : ¬ ascii "end" <+: keyword ∧ ¬ keyword <+: ascii "end")
      (begins : keyword <+: buf) : ¬ ascii "end" <+: buf :=
    keywords_apart begins ⟨alone.2, alone.1⟩
  cases dispatched with
  | login keyword => exact iff_of_false nofun (apart _ (by decide) (compare.login.mp keyword))
  | deposit _ keyword => exact iff_of_false nofun (apart _ (by decide) (compare.deposit.mp keyword))
  | withdraw _ _ keyword =>
      exact iff_of_false nofun (apart _ (by decide) (compare.withdraw.mp keyword))
  | stop _ _ _ keyword => exact iff_of_true rfl (compare.stop.mp keyword)
  | other _ _ _ notEnd => exact iff_of_false nofun fun stop => notEnd (compare.stop.mpr stop)

/-- Ecalls that a request can ask for; the inquiry only follows a login. -/
def Ecall.Requested : Ecall → Prop
  | .initManager => False
  | .newAccount .. => True
  | .myDeposit _ => True
  | .myWithdraw _ => True
  | .myInquiry => False

/-- What main prints before it makes the ecall of a request. -/
def Ecall.starting : Ecall → String
  | .newAccount .. => "[Server]: ログイン処理スタート\n"
  | .myDeposit _ => "[Server]: 預金処理スタート\n"
  | .myWithdraw _ => "[Server]: 引き出し処理スタート\n"
  | .initManager => ""
  | .myInquiry => ""

/-- What main does with the result of a requested ecall. -/
def replyEcall (stack : Stack) : Ecall → Returned → App Unit
  | .newAccount .., .result result =>
      if result = .accountSetFail then
        write (ascii "login fail.")
      else do
        let deposits ← callEnclave .myInquiry ecallMyInquiry
        writeDeposits stack 13 (ascii "login") deposits
  | .myDeposit _, .value deposits => writeDeposits stack 8 [] deposits
  | .myWithdraw amount, .value deposits =>
      if deposits < amount then
        write (ascii "too big.")
      else
        writeDeposits stack 8 [] deposits
  | _, _ => return ()

/-- The pass of the loop from the return of a requested ecall on. -/
def behindEcall (stack : Stack) (call : Ecall) (returned : Returned) : App Bool := do
  replyEcall stack call returned
  cout "[Server]: 完了\n"
  return false

/-- Programs whose only ecall is the inquiry, whether they return or fault. -/
inductive Quiet (stack : Stack) : {α : Type} → App α → Prop where
  | pure {α : Type} (a : α) : Quiet stack (pure a : App α)
  | cout (line : String) : Quiet stack (cout line)
  | write (bytes : Bytes) : Quiet stack (write bytes)
  | writeDeposits (size : Nat) (label : Bytes) (deposits : UInt64) :
      Quiet stack (writeDeposits stack size label deposits)
  | inquiry : Quiet stack (callEnclave .myInquiry ecallMyInquiry)
  | bind {α β : Type} {first : App α} {next : α → App β} (here : Quiet stack first)
      (later : ∀ a, Quiet stack (next a)) : Quiet stack (first >>= next)

/-- A quiet program that returns has logged no requested ecall. -/
theorem Quiet.logged {α : Type} {program : App α} (quiet : Quiet stack program) :
    ∀ {s s' : Server} {a : α}, program.run s = .ok (a, s') →
      ∃ calls, s'.calls = s.calls ++ calls ∧ ∀ call ∈ calls, ¬ call.Requested := by
  have nothing (s : Server) :
      ∃ calls, s.calls = s.calls ++ calls ∧ ∀ call ∈ calls, ¬ call.Requested :=
    ⟨[], (List.append_nil _).symm, fun _ member => absurd member List.not_mem_nil⟩
  induction quiet with
  | pure a =>
      intro s s' _ returned
      cases returned
      exact nothing s
  | cout line =>
      intro s s' _ returned
      cases returned
      exact nothing s
  | write bytes =>
      intro s s' _ returned
      cases returned
      exact nothing s
  | writeDeposits size label deposits =>
      intro s s' _ returned
      obtain ⟨_, rfl⟩ := writeDeposits_ok.mp returned
      exact nothing s
  | inquiry =>
      intro s s' _ returned
      obtain ⟨bank, _, rfl⟩ := callEnclave_ok.mp returned
      exact ⟨[.myInquiry], rfl, List.forall_mem_singleton.mpr id⟩
  | bind here later ihHere ihLater =>
      intro s s' _ returned
      obtain ⟨a, middle, first, rest⟩ := run_bind_ok.mp returned
      obtain ⟨calls, logged, quiet⟩ := ihHere first
      obtain ⟨calls', logged', quiet'⟩ := ihLater a rest
      refine ⟨calls ++ calls', ?_, List.forall_mem_append.mpr ⟨quiet, quiet'⟩⟩
      rw [logged', logged, List.append_assoc]

/-- From this state the pass makes the ecall before anything else that can fault, and behind
it at most inquiries: a fault of the ecall is that of the pass, and once it has returned, the
log and the bank are those behind it and the rest of the pass is quiet. -/
structure MakesOnce (sgx : Sgx) (stack : Stack) (call : Ecall) (pass : App Bool) (s : Server) :
    Prop where
  faulted : ∀ fault, (call.exec sgx).run s.bank = .error fault → pass.run s = .error fault
  made : ∀ returned bank, (call.exec sgx).run s.bank = .ok (returned, bank) →
    pass.run s = (behindEcall stack call returned).run
      ⟨bank, s.calls ++ [call], s.sent, s.console ++ [call.starting]⟩
  quiet : ∀ returned, Quiet stack (behindEcall stack call returned)

theorem MakesOnce.logged {call : Ecall} {pass : App Bool} {stopped : Bool}
    (makes : MakesOnce sgx stack call pass s) (returned : pass.run s = .ok (stopped, s')) :
    ∃ behind, s'.calls = s.calls ++ call :: behind ∧ ∀ later ∈ behind, ¬ later.Requested := by
  cases ran : (call.exec sgx).run s.bank with
  | error fault =>
      rw [makes.faulted fault ran] at returned
      cases returned
  | ok p =>
      rw [makes.made p.1 p.2 ran] at returned
      obtain ⟨behind, logged, quiet⟩ := (makes.quiet p.1).logged returned
      exact ⟨behind, by rw [logged, List.append_assoc, List.singleton_append], quiet⟩

/-- The request texts as the client means them: a number is one or more digits. -/
def RequestText.Proper : RequestText → Prop
  | .login _ _ => True
  | .deposit amount => amount.bytes ≠ [] ∧ ∀ b ∈ amount.bytes, isDigit b = true
  | .withdraw amount => amount.bytes ≠ [] ∧ ∀ b ∈ amount.bytes, isDigit b = true

/-- A proper text and nothing but NULs behind it. -/
def InGrammar (buf : Bytes) : Prop :=
  ∃ text : RequestText, text.Proper ∧ ∃ n, buf = text.bytes ++ calloc n

theorem InGrammar.keyword (proper : InGrammar buf) (fields : Delimited.segments comma buf =
    first :: data) : first ∈ [ascii "login", ascii "deposit", ascii "withdraw"] := by
  obtain ⟨text, _, n, rfl⟩ := proper
  have clean : comma ∉ calloc n := fun member => absurd (mem_calloc member) (by decide)
  have found : Delimited.segments comma (text.bytes ++ calloc n) = text.fields := by
    rw [RequestText.bytes, Delimited.segments_fields text.fields text.clean,
      Delimited.segments_clean clean, List.append_nil]
  rw [found] at fields
  cases text with
  | login name password =>
      obtain ⟨rfl, _⟩ := List.cons.inj fields
      exact List.mem_cons_self ..
  | deposit amount =>
      obtain ⟨rfl, _⟩ := List.cons.inj fields
      exact List.mem_cons_of_mem _ (List.mem_cons_self ..)
  | withdraw amount =>
      obtain ⟨rfl, _⟩ := List.cons.inj fields
      exact List.mem_cons_of_mem _ (List.mem_cons_of_mem _ (List.mem_cons_self ..))

end SeccapBank
