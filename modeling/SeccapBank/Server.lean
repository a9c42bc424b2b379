import SeccapBank.EnclaveInit
import SeccapBank.ServerRequest

set_option autoImplicit false

/- The untrusted main: the receive loop, the three services it offers over the ecalls,
and what it writes back. -/
namespace SeccapBank

open CStrings Buffers Fallible Decimals Runs

/-- The server's process. The ecalls it made are kept in order, with their arguments. -/
structure Server where
  bank : World
  calls : List Ecall
  -- every buffer handed to write(), in order
  sent : List Bytes
  -- the lines that main prints itself
  console : List String
  deriving DecidableEq

abbrev App := Exec Server Fault

variable (sgx : Sgx)

/-- What the stack holds where `send_data` is not initialised, for every reply. -/
abbrev Stack := Nat → Nat → UInt8

variable (stack : Stack)

/-- A call into the enclave. -/
def callEnclave {α : Type} (call : Ecall) (body : Bank α) : App α := do
  let s ← get
  match body.run s.bank with
  | .ok (returned, bank) =>
      set { s with bank := bank, calls := s.calls ++ [call] }
      return returned
  | .error fault => throw fault

def write (bytes : Bytes) : App Unit := modify fun s => { s with sent := s.sent ++ [bytes] }

def cout (line : String) : App Unit := modify fun s => { s with console := s.console ++ [line] }

/-- `char send_data[size]`, printed into with a label and `%ld`, and written whole: the
bytes behind the NUL are what the stack held. -/
def writeDeposits (size : Nat) (label : Bytes) (deposits : UInt64) : App Unit := do
  let s ← get
  let sendData := (List.range size).map (stack s.sent.length)
  match sprintf sendData (label ++ printLong deposits.toInt64.toInt) with
  | some bytes => write bytes
  | none => throw .outOfBounds

def login (name password : CString) : App Unit := do
  cout "[Server]: ログイン処理スタート\n"
  let result ← callEnclave (.newAccount name password) (ecallNewAccount sgx name password)
  if result = .accountSetFail then
    write (ascii "login fail.")
  else
    let deposits ← callEnclave .myInquiry ecallMyInquiry
    writeDeposits stack 13 (ascii "login") deposits

def deposit (amount : UInt64) : App Unit := do
  cout "[Server]: 預金処理スタート\n"
  let deposits ← callEnclave (.myDeposit amount) (ecallMyDeposit sgx amount)
  writeDeposits stack 8 [] deposits

def withdraw (amount : UInt64) : App Unit := do
  cout "[Server]: 引き出し処理スタート\n"
  let deposits ← callEnclave (.myWithdraw amount) (ecallMyWithdraw sgx amount)
  if deposits < amount then
    write (ascii "too big.")
  else
    writeDeposits stack 8 [] deposits

/-- The branches of the dispatcher. -/
def service : Request → App Unit
  | .login name password => login sgx stack name password
  | .deposit amount => deposit sgx stack amount
  | .withdraw amount => withdraw sgx stack amount
  | .stop => return ()
  | .other => return ()

/-- The end command leaves both loops at once. -/
def perform (request : Request) : App Bool := do
  if request = .stop then
    return true
  else
    service sgx stack request
    cout "[Server]: 完了\n"
    return false

/-- What a call of `recv` brings: at least one byte, and no more than it asked for. -/
structure Chunk where
  bytes : Bytes
  nonempty : bytes ≠ []
  bound : bytes.length ≤ receiveBufSize

inductive Received where
  | closed
  | failed
  | data (chunk : Chunk)

/-- The zeroed buffer with the received bytes at its front. -/
def Chunk.buf (chunk : Chunk) : Bytes := blit (calloc receiveBufSize) chunk.bytes

/-- One pass of the inner loop. A closed connection leaves only that loop, and the outer
one starts it again; a failed `recv` is reported on the error stream. -/
def receive : Received → App Bool
  | .closed => return false
  | .failed => return false
  | .data chunk => do
      let request ← StateT.lift (requestOf chunk.buf)
      perform sgx stack request

/-- Both loops over the results of `recv`, until one of them brings the end command. -/
def serve : List Received → App Bool
  | [] => return false
  | received :: rest => do
      if ← receive sgx stack received then return true else serve rest

def serverMain (received : List Received) : App Bool := do
  let _ ← callEnclave .initManager (ecallInitManager sgx)
  serve sgx stack received

variable {sgx stack} {s s' : Server}

theorem callEnclave_ok {α : Type} {call : Ecall} {body : Bank α} {a : α} :
    (callEnclave call body).run s = .ok (a, s') ↔
      ∃ bank, body.run s.bank = .ok (a, bank) ∧
        s' = { s with bank := bank, calls := s.calls ++ [call] } := by
  cases ran : body.run s.bank with
  | error fault => simp [callEnclave, ran]
  | ok p =>
      have made : (callEnclave call body).run s =
          .ok (p.1, { s with bank := p.2, calls := s.calls ++ [call] }) := by
        simp [callEnclave, ran]
      rw [made]
      constructor
      · intro same
        cases same
        exact ⟨_, rfl, rfl⟩
      · rintro ⟨bank, same, rfl⟩
        cases same
        rfl

theorem callEnclave_run {α : Type} {body : Bank α} {a : α} {w w' : World}
    (ran : body.run w = .ok (a, w')) (call : Ecall) (calls : List Ecall) (sent : List Bytes)
    (console : List String) :
    (callEnclave call body).run ⟨w, calls, sent, console⟩ =
      .ok (a, ⟨w', calls ++ [call], sent, console⟩) :=
  callEnclave_ok.mpr ⟨w', ran, rfl⟩

@[simp] theorem cout_run (line : String) (s : Server) :
    (cout line).run s = .ok ((), { s with console := s.console ++ [line] }) := rfl

/-- A number is written exactly where its text and the NUL behind it fit the array. -/
theorem writeDeposits_ok {size : Nat} {label : Bytes} {deposits : UInt64} :
    (writeDeposits stack size label deposits).run s = .ok ((), s') ↔
      (label ++ printLong deposits.toInt64.toInt).length < size ∧
        s' = { s with sent := s.sent ++ [blit ((List.range size).map (stack s.sent.length))
          (label ++ printLong deposits.toInt64.toInt ++ [0])] } := by
  have sized : ((List.range size).map (stack s.sent.length)).length = size := by simp
  by_cases fits : (label ++ printLong deposits.toInt64.toInt).length < size
  · have made : (writeDeposits stack size label deposits).run s =
        .ok ((), { s with sent := s.sent ++ [blit ((List.range size).map (stack s.sent.length))
          (label ++ printLong deposits.toInt64.toInt ++ [0])] }) := by
      rw [writeDeposits, run_bind_of_ok (get_run s)]
      dsimp only
      rw [sprintf, if_pos (by rwa [sized])]
      rfl
    rw [made]
    constructor
    · intro same
      cases same
      exact ⟨fits, rfl⟩
    · rintro ⟨_, rfl⟩
      rfl
  · have faults : (writeDeposits stack size label deposits).run s = .error .outOfBounds := by
      rw [writeDeposits, run_bind_of_ok (get_run s)]
      dsimp only
      rw [sprintf, if_neg (by rwa [sized])]
      rfl
    rw [faults]
    exact iff_of_false nofun fun both => fits both.1

/-- The ecalls that a request makes when it is served: one, and an inquiry behind a
login that was not refused. -/
def Request.Makes : Request → List Ecall → Prop
  | .login name password, calls =>
      calls = [.newAccount name password] ∨ calls = [.newAccount name password, .myInquiry]
  | .deposit amount, calls => calls = [.myDeposit amount]
  | .withdraw amount, calls => calls = [.myWithdraw amount]
  | .stop, calls => calls = []
  | .other, calls => calls = []

/-- How many replies a request is owed. -/
def Request.replies : Request → Nat
  | .login .. => 1
  | .deposit _ => 1
  | .withdraw _ => 1
  | .stop => 0
  | .other => 0

/-- Between these states the server made a run of ecalls and wrote so many replies. -/
structure Served (sgx : Sgx) (s : Server) (calls : List Ecall) (replies : Nat) (s' : Server) :
    Prop where
  ecalls : ∃ history, EcallRun sgx s.bank history s'.bank ∧ history.map (·.label.1) = calls
  logged : s'.calls = s.calls ++ calls
  replied : s'.sent.length = s.sent.length + replies

theorem Served.refl (sgx : Sgx) (s : Server) : Served sgx s [] 0 s :=
  ⟨⟨[], .nil, rfl⟩, (List.append_nil _).symm, rfl⟩

theorem Served.trans {first second : List Ecall} {m n : Nat} {middle : Server}
    (before : Served sgx s first m middle) (after : Served sgx middle second n s') :
    Served sgx s (first ++ second) (m + n) s' := by
  obtain ⟨⟨history, run, made⟩, logged, replied⟩ := before
  obtain ⟨⟨history', run', made'⟩, logged', replied'⟩ := after
  refine ⟨⟨history ++ history', run.append run', ?_⟩, ?_, ?_⟩
  · rw [List.map_append, made, made']
  · rw [logged', logged, List.append_assoc]
  · omega

theorem Served.cout (sgx : Sgx) (line : String) (s : Server) :
    Served sgx s [] 0 { s with console := s.console ++ [line] } :=
  ⟨⟨[], .nil, rfl⟩, (List.append_nil _).symm, rfl⟩

theorem Served.write (sgx : Sgx) (bytes : Bytes) (s : Server) :
    Served sgx s [] 1 { s with sent := s.sent ++ [bytes] } :=
  ⟨⟨[], .nil, rfl⟩, (List.append_nil _).symm, List.length_append⟩

theorem Served.call (sgx : Sgx) {α : Type} {call : Ecall} {body : Bank α} {f : α → Returned} {a : α}
    (same : call.exec sgx = f <$> body) (made : (callEnclave call body).run s = .ok (a, s')) :
    Served sgx s [call] 0 s' := by
  obtain ⟨bank, ran, rfl⟩ := callEnclave_ok.mp made
  have step : EcallStep sgx s.bank (call, f a) bank := by
    rw [EcallStep, same]
    exact run_map_ok.mpr ⟨a, ran, rfl⟩
  exact ⟨⟨_, Run.nil.snoc step, rfl⟩, rfl, rfl⟩

theorem Served.writeDeposits {size : Nat} {label : Bytes} {deposits : UInt64}
    (written : (writeDeposits stack size label deposits).run s = .ok ((), s')) :
    Served sgx s [] 1 s' := by
  obtain ⟨_, rfl⟩ := writeDeposits_ok.mp written
  exact .write sgx _ s

theorem login_served {name password : CString}
    (returned : (login sgx stack name password).run s = .ok ((), s')) :
    ∃ calls, (Request.login name password).Makes calls ∧ Served sgx s calls 1 s' := by
  rw [login, run_bind_of_ok (cout_run _ s)] at returned
  obtain ⟨result, s1, called, rest⟩ := run_bind_ok.mp returned
  have entered := (Served.cout sgx _ s).trans (Served.call sgx (f := .result) rfl called)
  split at rest
  · cases rest
    exact ⟨_, .inl rfl, entered.trans (.write sgx _ s1)⟩
  · obtain ⟨deposits, s2, asked, written⟩ := run_bind_ok.mp rest
    have inquired := entered.trans (Served.call sgx (f := .value) rfl asked)
    exact ⟨_, .inr rfl, inquired.trans (.writeDeposits written)⟩

theorem deposit_served {amount : UInt64}
    (returned : (deposit sgx stack amount).run s = .ok ((), s')) :
    Served sgx s [.myDeposit amount] 1 s' := by
  rw [deposit, run_bind_of_ok (cout_run _ s)] at returned
  obtain ⟨deposits, s1, called, written⟩ := run_bind_ok.mp returned
  have dealt := (Served.cout sgx _ s).trans (Served.call sgx (f := .value) rfl called)
  exact dealt.trans (.writeDeposits written)

theorem withdraw_served {amount : UInt64}
    (returned : (withdraw sgx stack amount).run s = .ok ((), s')) :
    Served sgx s [.myWithdraw amount] 1 s' := by
  rw [withdraw, run_bind_of_ok (cout_run _ s)] at returned
  obtain ⟨deposits, s1, called, rest⟩ := run_bind_ok.mp returned
  have dealt := (Served.cout sgx _ s).trans (Served.call sgx (f := .value) rfl called)
  split at rest
  · cases rest
    exact dealt.trans (.write sgx _ s1)
  · exact dealt.trans (.writeDeposits rest)

/-- A request that was served made its own ecalls and wrote its one reply. -/
theorem service_served {request : Request}
    (returned : (service sgx stack request).run s = .ok ((), s')) :
    ∃ calls, request.Makes calls ∧ Served sgx s calls request.replies s' := by
  cases request with
  | login name password => exact login_served returned
  | deposit amount => exact ⟨_, rfl, deposit_served returned⟩
  | withdraw amount => exact ⟨_, rfl, withdraw_served returned⟩
  | stop =>
      cases returned
      exact ⟨[], rfl, .refl sgx s⟩
  | other =>
      cases returned
      exact ⟨[], rfl, .refl sgx s⟩

/-- Exactly the end command leaves the loops. -/
theorem perform_served {request : Request} {stopped : Bool}
    (returned : (perform sgx stack request).run s = .ok (stopped, s')) :
    (stopped = true ↔ request = .stop) ∧
      ∃ calls, request.Makes calls ∧ Served sgx s calls request.replies s' := by
  unfold perform at returned
  split at returned
  · rename_i stop
    cases returned
    subst stop
    exact ⟨iff_of_true rfl rfl, [], rfl, .refl sgx s⟩
  · rename_i running
    obtain ⟨_, s1, done, rest⟩ := run_bind_ok.mp returned
    obtain ⟨calls, makes, served⟩ := service_served done
    cases rest
    refine ⟨iff_of_false Bool.false_ne_true running, calls, makes, ?_⟩
    have printed := served.trans (.cout sgx "[Server]: 完了\n" s1)
    rwa [List.append_nil, Nat.add_zero] at printed

theorem receive_data {chunk : Chunk} {stopped : Bool} :
    (receive sgx stack (.data chunk)).run s = .ok (stopped, s') ↔
      ∃ request, requestOf chunk.buf = .ok request ∧
        (perform sgx stack request).run s = .ok (stopped, s') := by
  unfold receive
  cases found : requestOf chunk.buf with
  | error fault => simp [found]
  | ok request => simp [found]

theorem receive_taken {chunk : Chunk} {request : Request}
    (taken : requestOf chunk.buf = .ok request) :
    receive sgx stack (.data chunk) = perform sgx stack request := by
  rw [receive, taken]
  rfl

theorem receive_fault {chunk : Chunk} {fault : Fault}
    (failed : requestOf chunk.buf = .error fault) :
    (receive sgx stack (.data chunk)).run s = .error fault := by
  simp [receive, failed]

theorem Chunk.buf_length (chunk : Chunk) : chunk.buf.length = receiveBufSize := by
  have bound := chunk.bound
  rw [Chunk.buf, blit_length, calloc_length]
  omega

/-- A received buffer that fills the server's whole one is what the server reads. -/
theorem Chunk.buf_whole {chunk : Chunk} (whole : chunk.bytes.length = receiveBufSize) :
    chunk.buf = chunk.bytes := by
  apply blit_length_of_le
  rw [calloc_length, whole]

/-- A whole buffer that is received at once. -/
def Chunk.ofWhole (bytes : Bytes) (whole : bytes.length = receiveBufSize) : Chunk where
  bytes := bytes
  nonempty := List.ne_nil_of_length_pos (by rw [whole]; decide)
  bound := Nat.le_of_eq whole

/-- A server that has just been started on an empty file. -/
def openServer : Server := ⟨emptyBank, [.initManager], [], []⟩

def cleanStack : Stack := fun _ _ => 0

end SeccapBank
