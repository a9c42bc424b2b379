import SeccapBank.ClientReplies

set_option autoImplicit false

/- Whole sessions of the client against the replies that reach it, one for each request. -/
namespace SeccapBank

open CStrings Buffers Fallible Decimals Runs

/-- One pass of the input loop. -/
def pass (op : Operation) (outcome : Exchange) : Session Unit := do
  prompt
  match ← enter op.entry with
  | none => return ()
  | some depositPrint => exchange depositPrint outcome

def promptLine : String := "操作番号を入力してください．\n"

def menuLine (login : Bool) : String :=
  if login then "[2] 預金 [3] 引き出し [4] 取引終了\n" else "[1] 認証 [2] 預金 [3] 引き出し [4] 取引終了\n"

/-- What the client prints before it reads the arguments. -/
def Operation.question : Operation → String
  | .login .. => "アカウント名及びパスワードを入力してください．\n"
  | .deposit _ => "預ける金額を入力してください．\n"
  | .withdraw _ => "引き出す金額を入力してください．\n"

/-- `login` behind the branch of an operation. -/
def Operation.loginAfter (old : Bool) : Operation → Bool
  | .login .. => true
  | .deposit _ => old
  | .withdraw _ => old

/-- The client with a request in its buffer that is still to be sent. -/
def Client.entered (c : Client) (op : Operation) : Client where
  sendInfo := printed c.sendInfo op
  receiveData := c.receiveData
  login := op.loginAfter c.login
  preAmount := c.preAmount
  sends := c.sends
  console := c.console ++ [promptLine, menuLine c.login, op.question]

variable {c c' : Client} {op : Operation} {reply : Reply} {bytes : Bytes}

theorem prompt_run (c : Client) : prompt.run c =
    .ok ((), { c with console := c.console ++ [promptLine, menuLine c.login] }) := by
  rw [prompt, run_bind_of_ok (display_run _ c), run_bind_of_ok (get_run _)]
  dsimp only
  split
  · rename_i logged
    rw [menuLine, if_pos logged]
    exact display_append _ c _
  · rename_i unknown
    rw [menuLine, if_neg unknown]
    exact display_append _ c _

/-- A pass goes on to the exchange exactly when the words fit their arrays and the text
fits the buffer. -/
theorem entered_iff {entered : Option Bool} :
    (prompt >>= fun _ => enter op.entry).run c = .ok (entered, c') ↔
      op.Readable ∧ op.text.length < c.sendInfo.length ∧ entered = some op.depositPrint ∧
        c' = c.entered op := by
  let prompted : Client := { c with console := c.console ++ [promptLine, menuLine c.login] }
  have answer : op.entry.entered = some op.depositPrint := by
    cases op <;> rfl
  have after : prompted.afterEntry op.entry = c.entered op := by
    cases op <;> exact congrArg (Client.mk _ _ _ _ _) (List.append_assoc c.console [_, _] [_])
  rw [run_bind_of_ok (prompt_run c), enter_ok, answer, after, op.entry_operation]
  constructor
  · rintro ⟨all, same⟩
    exact ⟨(all op rfl).1, (all op rfl).2, same⟩
  · rintro ⟨readable, room, same⟩
    refine ⟨?_, same⟩
    intro other listed
    cases listed
    exact ⟨readable, room⟩

theorem pass_iff {outcome : Exchange} : (pass op outcome).run c = .ok ((), c') ↔
    op.Readable ∧ op.text.length < c.sendInfo.length ∧
      (exchange op.depositPrint outcome).run (c.entered op) = .ok ((), c') := by
  let answer (entered : Option Bool) : Session Unit :=
    match entered with
    | none => return ()
    | some depositPrint => exchange depositPrint outcome
  have split : pass op outcome = (prompt >>= fun _ => enter op.entry) >>= answer := by
    rw [pass, bind_assoc]
  rw [split]
  constructor
  · intro returned
    obtain ⟨entered, c1, front, back⟩ := run_bind_ok.mp returned
    obtain ⟨readable, room, rfl, rfl⟩ := entered_iff.mp front
    exact ⟨readable, room, back⟩
  · rintro ⟨readable, room, exchanged⟩
    rw [run_bind_of_ok (entered_iff.mpr ⟨readable, room, rfl, rfl⟩)]
    exact exchanged

/-- A reply that answers an operation, as it was written. -/
structure Delivery where
  op : Operation
  reply : Reply
  kind : op.MayReceive reply
  bytes : Bytes
  written : reply.Written bytes

def Delivery.outcome (d : Delivery) : Exchange := .received d.bytes d.written.bound

/-- A pass of the loop whose request is sent and answered by this reply. -/
def PassStep (c : Client) (d : Delivery) (c' : Client) : Prop :=
  (pass d.op d.outcome).run c = .ok ((), c')

/-- What a pass needs, and what it leaves. -/
theorem passStep_iff {d : Delivery} : PassStep c d c' ↔
    d.op.Readable ∧ d.op.text.length < c.sendInfo.length ∧
      c' = (c.entered d.op).told d.reply d.bytes := by
  rw [PassStep, pass_iff, Delivery.outcome, d.kind.depositPrint, exchange_told d.written]
  constructor
  · rintro ⟨readable, room, same⟩
    cases same
    exact ⟨readable, room, rfl⟩
  · rintro ⟨readable, room, rfl⟩
    exact ⟨readable, room, rfl⟩

/-- What a pass prints. -/
def Delivery.lines (c : Client) (d : Delivery) : List String :=
  [promptLine, menuLine c.login, d.op.question] ++ d.reply.lines c.preAmount

theorem passStep_console {d : Delivery} (step : PassStep c d c') :
    c'.console = c.console ++ d.lines c := by
  obtain ⟨_, _, rfl⟩ := passStep_iff.mp step
  exact List.append_assoc ..

/-- A session of the loop is a run of its passes, and does not end before its input does. -/
theorem clientMain_passes {deliveries : List Delivery} {left : Bool}
    (returned : (clientMain (deliveries.map fun d => (d.op.entry, d.outcome))).run c =
      .ok (left, c')) :
    left = false ∧ ∃ history, Run PassStep c history c' ∧ history.map (·.label) = deliveries := by
  unfold clientMain at returned
  induction deliveries generalizing c with
  | nil =>
      cases returned
      exact ⟨rfl, [], .nil, rfl⟩
  | cons d deliveries ih =>
      obtain ⟨_, c1, prompted, rest⟩ := run_bind_ok.mp returned
      obtain ⟨entered, c2, branch, rest⟩ := run_bind_ok.mp rest
      have front : (prompt >>= fun _ => enter d.op.entry).run c = .ok (entered, c2) :=
        run_bind_ok.mpr ⟨_, c1, prompted, branch⟩
      obtain ⟨_, _, rfl, _⟩ := entered_iff.mp front
      obtain ⟨_, c3, exchanged, rest⟩ := run_bind_ok.mp rest
      have fits : d.op.entry.Fits :=
        operation_fits (Option.isSome_iff_exists.mpr ⟨_, d.op.entry_operation⟩)
      rw [decide_eq_true fits, Bool.and_self] at rest
      obtain ⟨stays, history, run, labels⟩ := ih rest
      have step : PassStep c d c3 :=
        run_bind_ok.mpr ⟨_, c1, prompted, run_bind_ok.mpr ⟨_, c2, branch, exchanged⟩⟩
      have first : Run PassStep c [⟨c, d, c3⟩] c3 := Run.nil.snoc step
      exact ⟨stays, _, first.append run, congrArg (d :: ·) labels⟩

/-- The client took the reply for what the server sent: it shows an amount for a login
exactly when it was granted, and each of the two messages exactly for its reply. -/
structure Classified (d : Delivery) (lines : List String) : Prop where
  login : ∀ name password, d.op = .login name password →
    ((∃ amount, amountLine amount ∈ lines) ↔ ∃ deposits, d.reply = .loginSuccess deposits)
  wrongPassword : wrongPasswordLine ∈ lines ↔ d.reply = .loginFail
  tooBig : tooBigLine ∈ lines ↔ d.reply = .tooBig

/-- The pass printed lines that classify its reply. -/
def ClassifiedPass (move : Transition Client Delivery) : Prop :=
  ∃ lines, move.post.console = move.pre.console ++ lines ∧ Classified move.label lines

theorem amountLine_head (amount : Int) : (amountLine amount).toList.head? = some '<' := by
  have parts : amountLine amount = "<<現在の合計金額>> " ++ toString amount ++ " 円\n" := rfl
  have first : "<<現在の合計金額>> ".toList.head? = some '<' := by decide
  rw [parts, String.toList_append, String.toList_append, List.append_assoc, List.head?_append,
    first]
  rfl

theorem ne_amountLine (line : String) (other : line.toList.head? ≠ some '<') (amount : Int) :
    line ≠ amountLine amount := by
  rintro rfl
  exact other (amountLine_head amount)

theorem front_lines (login : Bool) (op : Operation) :
    wrongPasswordLine ∉ [promptLine, menuLine login, op.question] ∧
      tooBigLine ∉ [promptLine, menuLine login, op.question] := by
  have questions : ∀ question ∈ ["アカウント名及びパスワードを入力してください．\n",
      "預ける金額を入力してください．\n", "引き出す金額を入力してください．\n"], ∀ login,
        wrongPasswordLine ∉ [promptLine, menuLine login, question] ∧
          tooBigLine ∉ [promptLine, menuLine login, question] := by
    decide
  apply questions
  cases op with
  | login name password => exact List.mem_cons_self ..
  | deposit amount => exact List.mem_cons_of_mem _ (List.mem_cons_self ..)
  | withdraw amount => exact List.mem_cons_of_mem _ (List.mem_cons_of_mem _ (List.mem_cons_self ..))

theorem message_lines (preAmount : UInt64) (reply : Reply) :
    (wrongPasswordLine ∈ reply.lines preAmount ↔ reply = .loginFail) ∧
      (tooBigLine ∈ reply.lines preAmount ↔ reply = .tooBig) := by
  have wrongPassword := ne_amountLine wrongPasswordLine (by decide)
  have tooBig := ne_amountLine tooBigLine (by decide)
  have ends : wrongPasswordLine ≠ "\n" ∧ tooBigLine ≠ "\n" ∧ wrongPasswordLine ≠ tooBigLine := by
    decide
  cases reply with
  | loginSuccess deposits => simp [Reply.lines, wrongPassword, tooBig]
  | loginFail => simp [Reply.lines, wrongPassword, tooBig, ends, ends.2.2.symm]
  | balance deposits => simp [Reply.lines, wrongPassword, tooBig, ends]
  | tooBig => simp [Reply.lines, wrongPassword, tooBig, ends]

theorem mayReceive_login (kind : op.MayReceive reply) :
    (∃ name password, op = .login name password) ↔
      reply = .loginFail ∨ ∃ deposits, reply = .loginSuccess deposits := by
  cases op <;> cases reply <;> first | exact False.elim kind | simp

/-- A pass classifies its reply exactly when that is no refused login: of this the first
word is also that of a login that was granted. -/
theorem classified_step {d : Delivery} (step : PassStep c d c') :
    ClassifiedPass ⟨c, d, c'⟩ ↔ d.reply ≠ .loginFail := by
  have printed := passStep_console step
  have login := mayReceive_login d.kind
  obtain ⟨noWrong, noTooBig⟩ := front_lines c.login d.op
  obtain ⟨wrong, tooBig⟩ := message_lines c.preAmount d.reply
  constructor
  · rintro ⟨lines, console, classified⟩ refused
    obtain rfl : d.lines c = lines := by
      rw [printed] at console
      exact List.append_cancel_left console
    obtain ⟨name, password, asked⟩ := login.mpr (.inl refused)
    have shown : ∃ amount, amountLine amount ∈ d.lines c := by
      refine ⟨0, List.mem_append_right _ ?_⟩
      rw [refused]
      exact List.mem_cons_self ..
    obtain ⟨deposits, granted⟩ := (classified.login name password asked).mp shown
    rw [refused] at granted
    cases granted
  · intro granted
    refine ⟨d.lines c, printed, ?_, ?_, ?_⟩
    · intro name password asked
      obtain ⟨deposits, said⟩ := (login.mp ⟨name, password, asked⟩).resolve_left granted
      refine iff_of_true ⟨deposits.toInt64.toInt, List.mem_append_right _ ?_⟩ ⟨deposits, said⟩
      rw [said]
      exact List.mem_cons_self ..
    · rw [Delivery.lines, List.mem_append, wrong]
      exact or_iff_right noWrong
    · rw [Delivery.lines, List.mem_append, tooBig]
      exact or_iff_right noTooBig

/-- In a session every reply is taken for what it is exactly when no login is refused. -/
theorem classified_iff {history : List (Transition Client Delivery)}
    (run : Run PassStep c history c') :
    (∀ move ∈ history, ClassifiedPass move) ↔ ∀ move ∈ history, move.label.reply ≠ .loginFail := by
  apply forall₂_congr
  intro move member
  exact classified_step (run.of_mem member).1

def grantedLogin : Delivery where
  op := .login alice secret
  reply := .loginSuccess 100
  kind := trivial
  bytes := ascii "login100" ++ calloc 5
  written := ⟨calloc 4, by decide +kernel, by decide⟩

def refusedLogin : Delivery where
  op := .login alice secret
  reply := .loginFail
  kind := trivial
  bytes := ascii "login fail."
  written := rfl

theorem alice_room : (Operation.login alice secret).text.length < zeroedClient.sendInfo.length := by
  show _ < (calloc transferSize).length
  rw [calloc_length]
  decide

def paidIn : Delivery where
  op := .deposit 5
  reply := .balance 105
  kind := trivial
  bytes := ascii "105" ++ calloc 5
  written := ⟨calloc 4, by decide +kernel, by decide⟩

def tooMuch : Delivery where
  op := .withdraw 1000
  reply := .tooBig
  kind := trivial
  bytes := ascii "too big."
  written := rfl

def paidOut : Delivery where
  op := .withdraw 98
  reply := .balance 7
  kind := trivial
  bytes := ascii "7" ++ calloc 7
  written := ⟨calloc 6, by decide +kernel, by decide⟩

/-- Words that fit bring a session through, whatever is replied. -/
theorem passes_run {deliveries : List Delivery} (sized : c.sendInfo.length = transferSize)
    (readable : ∀ d ∈ deliveries, d.op.Readable) :
    ∃ history c', Run PassStep c history c' ∧ history.map (·.label) = deliveries := by
  induction deliveries generalizing c with
  | nil => exact ⟨[], c, .nil, rfl⟩
  | cons d deliveries ih =>
      obtain ⟨here, later⟩ := List.forall_mem_cons.mp readable
      have step : PassStep c d ((c.entered d.op).told d.reply d.bytes) :=
        passStep_iff.mpr ⟨here, by rw [sized]; exact d.op.text_length here, rfl⟩
      have still : ((c.entered d.op).told d.reply d.bytes).sendInfo.length = transferSize :=
        printed_length sized here
      obtain ⟨history, c', run, labels⟩ := ih still later
      have first : Run PassStep c [⟨c, d, _⟩] _ := Run.nil.snoc step
      exact ⟨_, c', first.append run, congrArg (d :: ·) labels⟩

/-- Every kind of reply but a refusal, each over what the earlier ones left in the buffer. -/
theorem classified_session : ∃ history c', Run PassStep zeroedClient history c' ∧
    history.map (·.label.reply) =
      [.loginSuccess 100, .balance 105, .tooBig, .balance 7, .loginSuccess 100] ∧
        ∀ move ∈ history, ClassifiedPass move := by
  have readable : ∀ d ∈ [grantedLogin, paidIn, tooMuch, paidOut, grantedLogin],
      d.op.Readable := by
    have login : grantedLogin.op.Readable := ⟨by decide, by decide⟩
    simp only [List.forall_mem_cons]
    exact ⟨login, trivial, trivial, trivial, login, fun _ member => absurd member List.not_mem_nil⟩
  obtain ⟨history, c', run, labels⟩ := passes_run (c := zeroedClient) (calloc_length _) readable
  have replies : history.map (·.label.reply) =
      [.loginSuccess 100, .balance 105, .tooBig, .balance 7, .loginSuccess 100] := by
    rw [← Function.comp_def Delivery.reply, ← List.map_map, labels]
    rfl
  refine ⟨history, c', run, replies, (classified_iff run).mpr ?_⟩
  intro move member
  have listed : move.label.reply ∈ history.map (·.label.reply) := List.mem_map_of_mem member
  rw [replies] at listed
  intro refused
  rw [refused] at listed
  simp at listed

/-- A refused login is shown with an amount of 0, and only then as refused. -/
theorem refused_login_shown : ∃ history c', Run PassStep zeroedClient history c' ∧
    history.map (·.label.reply) = [.loginFail] ∧
      c'.console = [promptLine, menuLine false, (Operation.login alice secret).question,
        amountLine 0, wrongPasswordLine, "\n"] ∧ ¬ ∀ move ∈ history, ClassifiedPass move := by
  have step : PassStep zeroedClient refusedLogin _ :=
    passStep_iff.mpr ⟨⟨by decide, by decide⟩, alice_room, rfl⟩
  refine ⟨_, _, Run.nil.snoc step, rfl, rfl, fun all => ?_⟩
  exact (classified_step step).mp (all _ (List.mem_singleton_self _)) rfl

end SeccapBank
