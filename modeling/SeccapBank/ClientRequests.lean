import SeccapBank.Client

set_option autoImplicit false

/- The messages that a session of the client sends, against the operations that its user
entered. -/
namespace SeccapBank

open CStrings Buffers Fallible Decimals

/-- The operations that the menu offers. -/
inductive Operation where
  | login (name password : Word)
  | deposit (amount : UInt64)
  | withdraw (amount : UInt64)

def Operation.text : Operation → Bytes
  | .login name password => loginText name.bytes password.bytes
  | .deposit amount => depositText amount
  | .withdraw amount => withdrawText amount

/-- The operation behind the opcodes 1, 2 and 3. -/
def MenuEntry.operation : MenuEntry → Option Operation
  | .authentication name password => some (.login name password)
  | .deposit amount => some (.deposit amount)
  | .withdrawal amount => some (.withdraw amount)
  | .quit => none
  | .other _ _ => none

/-- The words of an operation fit the arrays that they are read into. -/
def Operation.Readable : Operation → Prop
  | .login name password => name.bytes.length < 100 ∧ password.bytes.length < 100
  | .deposit _ => True
  | .withdraw _ => True

variable {c c' : Client}

theorem printLong_length (amount : UInt64) : (printLong amount.toInt64.toInt).length ≤ 20 := by
  have low := amount.toInt64.le_toInt
  have high := amount.toInt64.toInt_lt
  have digits : (decimal amount.toInt64.toInt.natAbs).length ≤ 19 := by
    apply (decimal_length_le (by decide)).mpr
    omega
  unfold printLong
  split
  · rw [List.length_cons]
    omega
  · omega

theorem Operation.text_length {op : Operation} (readable : op.Readable) :
    op.text.length < transferSize := by
  have size : transferSize = 1024 := rfl
  cases op with
  | login name password =>
      obtain ⟨named, given⟩ := readable
      have parts : (ascii "login,").length = 6 ∧ (ascii ",").length = 1 := by decide
      simp only [Operation.text, loginText, List.length_append, parts]
      omega
  | deposit amount =>
      have parts : (ascii "deposit,").length = 8 ∧ (ascii ",").length = 1 := by decide
      have digits := printLong_length amount
      simp only [Operation.text, depositText, List.length_append, parts]
      omega
  | withdraw amount =>
      have parts : (ascii "withdraw,").length = 9 ∧ (ascii ",").length = 1 := by decide
      have digits := printLong_length amount
      simp only [Operation.text, withdrawText, List.length_append, parts]
      omega

/-- The buffer after a text was printed into it. -/
def printed (sendInfo : Bytes) (op : Operation) : Bytes := blit sendInfo (op.text ++ [0])

theorem printed_length {sendInfo : Bytes} (sized : sendInfo.length = transferSize) {op : Operation}
    (readable : op.Readable) : (printed sendInfo op).length = transferSize := by
  have room := Operation.text_length readable
  rw [printed, blit_length, List.length_append, List.length_singleton]
  omega

/-- What stays behind everything but a send: the buffer, and the record of the sends. -/
structure Client.Keeps (c c' : Client) : Prop where
  sendInfo : c'.sendInfo = c.sendInfo
  sends : c'.sends = c.sends

/-- A part of the loop that always returns and sends nothing. -/
def Silent {α : Type} (x : Session α) : Prop :=
  ∀ c, ∃ a c', x.run c = .ok (a, c') ∧ c.Keeps c'

theorem silent_pure {α : Type} (a : α) : Silent (pure a : Session α) :=
  fun c => ⟨a, c, rfl, rfl, rfl⟩

theorem silent_bind {α β : Type} {x : Session α} {f : α → Session β} (first : Silent x)
    (second : ∀ a, Silent (f a)) : Silent (x >>= f) := by
  intro c
  obtain ⟨a, c1, head, sendInfo, sends⟩ := first c
  obtain ⟨b, c2, tail, sendInfo', sends'⟩ := second a c1
  refine ⟨b, c2, ?_, sendInfo'.trans sendInfo, sends'.trans sends⟩
  rw [run_bind_of_ok head]
  exact tail

theorem silent_ite {α : Type} {p : Prop} [Decidable p] {x y : Session α} (positive : Silent x)
    (negative : Silent y) : Silent (if p then x else y) := by
  split
  · exact positive
  · exact negative

theorem silent_get : Silent (get : Session Client) := fun c => ⟨c, c, rfl, rfl, rfl⟩

theorem silent_modify {f : Client → Client} (keeps : ∀ c, Client.Keeps c (f c)) :
    Silent (modify f : Session Unit) := fun c => ⟨(), f c, rfl, keeps c⟩

theorem display_silent (line : String) : Silent (display line) :=
  silent_modify fun _ => ⟨rfl, rfl⟩

theorem prompt_silent : Silent prompt :=
  silent_bind (display_silent _) fun _ => silent_bind silent_get fun _ =>
    silent_ite (display_silent _) (display_silent _)

theorem loginAmount_silent (receiveData : Bytes) : Silent (loginAmount receiveData) :=
  silent_ite (display_silent _) (silent_pure ())

theorem tooBig_silent : Silent tooBig :=
  silent_bind (display_silent _) fun _ => silent_bind silent_get fun _ =>
    silent_bind (display_silent _) fun _ => display_silent _

theorem loginFail_silent : Silent loginFail :=
  silent_bind (display_silent _) fun _ => silent_bind (silent_modify fun _ => ⟨rfl, rfl⟩) fun _ =>
    display_silent _

theorem depositAmount_silent (receiveData : Bytes) : Silent (depositAmount receiveData) :=
  silent_bind (display_silent _) fun _ => silent_bind (silent_modify fun _ => ⟨rfl, rfl⟩) fun _ =>
    display_silent _

theorem answer_silent (depositPrint : Bool) : Silent (answer depositPrint) := by
  apply silent_bind silent_get
  intro c
  apply silent_bind (loginAmount_silent _)
  intro _
  apply silent_ite tooBig_silent
  apply silent_ite loginFail_silent
  exact silent_ite (depositAmount_silent _) (silent_pure ())

theorem exchange_run (depositPrint : Bool) (outcome : Exchange) (c : Client) :
    ∃ c', (exchange depositPrint outcome).run c = .ok ((), c') ∧ c'.sendInfo = c.sendInfo ∧
      c'.sends = c.sends ++ [c.sendInfo] := by
  have sent : (modify fun c => { c with sends := c.sends ++ [c.sendInfo] } : Session Unit).run c =
      .ok ((), { c with sends := c.sends ++ [c.sendInfo] }) := rfl
  unfold exchange
  rw [run_bind_of_ok sent]
  cases outcome with
  | sendFailed =>
      obtain ⟨_, c', ran, sendInfo, sends⟩ := display_silent "\n" _
      exact ⟨c', ran, sendInfo, sends⟩
  | received bytes bound =>
      have rest : Silent (do
          modify fun c => { c with receiveData := blit c.receiveData bytes }
          answer depositPrint) :=
        silent_bind (silent_modify fun _ => ⟨rfl, rfl⟩) fun _ => answer_silent depositPrint
      obtain ⟨_, c', ran, sendInfo, sends⟩ := rest _
      exact ⟨c', ran, sendInfo, sends⟩

theorem printSendInfo_ok {text : Bytes} :
    (printSendInfo text).run c = .ok ((), c') ↔
      text.length < c.sendInfo.length ∧
        c' = { c with sendInfo := blit c.sendInfo (text ++ [0]) } := by
  rw [printSendInfo, run_bind_of_ok (get_run c), sprintf]
  by_cases room : text.length < c.sendInfo.length
  · rw [if_pos room]
    constructor
    · intro same
      cases same
      exact ⟨room, rfl⟩
    · rintro ⟨_, rfl⟩
      rfl
  · rw [if_neg room]
    exact iff_of_false nofun fun both => room both.1

theorem readWord_ok {word : Word} {text : Bytes} :
    (readWord word).run c = .ok (text, c') ↔
      word.bytes.length < 100 ∧ text = word.bytes ∧ c' = c := by
  unfold readWord
  split
  · rename_i fits
    constructor
    · intro same
      cases same
      exact ⟨fits, rfl, rfl⟩
    · rintro ⟨_, rfl, rfl⟩
      rfl
  · rename_i long
    exact iff_of_false nofun fun all => long all.1

/-- The buffer behind the branch of an entry: the text of its operation, and the old
content where there is none. -/
def formatted (sendInfo : Bytes) (entry : MenuEntry) : Bytes :=
  match entry.operation with
  | some op => printed sendInfo op
  | none => sendInfo

theorem display_run (line : String) (c : Client) :
    (display line).run c = .ok ((), { c with console := c.console ++ [line] }) := rfl

/-- What the branch of an entry returns: `deposit_print`, or nothing where it leaves. -/
def MenuEntry.entered : MenuEntry → Option Bool
  | .authentication .. => some false
  | .deposit _ => some true
  | .withdrawal _ => some true
  | .quit => none
  | .other .. => some false

/-- What the branch of an entry prints. -/
def MenuEntry.lines : MenuEntry → List String
  | .authentication .. => ["アカウント名及びパスワードを入力してください．\n"]
  | .deposit _ => ["預ける金額を入力してください．\n"]
  | .withdrawal _ => ["引き出す金額を入力してください．\n"]
  | .quit => ["取引を終了します.\n"]
  | .other .. => []

/-- `login` behind the branch of an entry. -/
def MenuEntry.loginAfter (old : Bool) : MenuEntry → Bool
  | .authentication .. => true
  | _ => old

/-- The client behind the branch of an entry. -/
def Client.afterEntry (c : Client) (entry : MenuEntry) : Client where
  sendInfo := formatted c.sendInfo entry
  receiveData := c.receiveData
  login := entry.loginAfter c.login
  preAmount := c.preAmount
  sends := c.sends
  console := c.console ++ entry.lines

theorem printAmount_ok {line : String} {text : Bytes} {entered answer : Option Bool} :
    (do display line; printSendInfo text; return answer : Session (Option Bool)).run c =
        .ok (entered, c') ↔
      text.length < c.sendInfo.length ∧ entered = answer ∧ c' = { c with
        sendInfo := blit c.sendInfo (text ++ [0]), console := c.console ++ [line] } := by
  rw [run_bind_of_ok (display_run line c)]
  constructor
  · intro returned
    obtain ⟨_, _, text, last⟩ := run_bind_ok.mp returned
    obtain ⟨room, rfl⟩ := printSendInfo_ok.mp text
    cases last
    exact ⟨room, rfl, rfl⟩
  · rintro ⟨room, rfl, rfl⟩
    exact run_bind_ok.mpr ⟨_, _, printSendInfo_ok.mpr ⟨room, rfl⟩, rfl⟩

/-- A branch returns exactly when its words fit their arrays and its text fits the
buffer, and leaves what this says. -/
theorem enter_ok {entry : MenuEntry} {entered : Option Bool} :
    (enter entry).run c = .ok (entered, c') ↔
      (∀ op ∈ entry.operation, op.Readable ∧ op.text.length < c.sendInfo.length) ∧
        entered = entry.entered ∧ c' = c.afterEntry entry := by
  have one (op : Operation) (P : Operation → Prop) : (∀ other ∈ some op, P other) ↔ P op :=
    ⟨fun all => all op rfl, fun holds other same => Option.some.inj same ▸ holds⟩
  cases entry with
  | authentication name password =>
      rw [MenuEntry.operation, one, enter, run_bind_of_ok (display_run _ c)]
      constructor
      · intro returned
        obtain ⟨_, _, named, rest⟩ := run_bind_ok.mp returned
        obtain ⟨short, rfl, rfl⟩ := readWord_ok.mp named
        obtain ⟨_, _, given, rest⟩ := run_bind_ok.mp rest
        obtain ⟨short', rfl, rfl⟩ := readWord_ok.mp given
        obtain ⟨_, _, text, rest⟩ := run_bind_ok.mp rest
        obtain ⟨room, rfl⟩ := printSendInfo_ok.mp text
        cases rest
        exact ⟨⟨⟨short, short'⟩, room⟩, rfl, rfl⟩
      · rintro ⟨⟨⟨short, short'⟩, room⟩, rfl, rfl⟩
        rw [run_bind_of_ok (readWord_ok.mpr ⟨short, rfl, rfl⟩),
          run_bind_of_ok (readWord_ok.mpr ⟨short', rfl, rfl⟩)]
        exact run_bind_ok.mpr ⟨_, _, printSendInfo_ok.mpr ⟨room, rfl⟩, rfl⟩
  | deposit amount =>
      rw [MenuEntry.operation, one, enter, printAmount_ok]
      exact and_congr_left' (true_and _).symm.to_iff
  | withdrawal amount =>
      rw [MenuEntry.operation, one, enter, printAmount_ok]
      exact and_congr_left' (true_and _).symm.to_iff
  | quit =>
      rw [enter, run_bind_of_ok (display_run _ c)]
      constructor
      · intro same
        cases same
        exact ⟨fun _ listed => absurd listed (Option.not_mem_none _), rfl, rfl⟩
      · rintro ⟨_, rfl, rfl⟩
        rfl
  | other opcode unknown =>
      have console : c.console ++ (MenuEntry.other opcode unknown).lines = c.console :=
        List.append_nil _
      rw [enter, Client.afterEntry, console]
      constructor
      · intro same
        cases same
        exact ⟨fun _ listed => absurd listed (Option.not_mem_none _), rfl, rfl⟩
      · rintro ⟨_, rfl, rfl⟩
        rfl

/-- A branch that goes on to the send leaves the text of its operation in the buffer. -/
theorem enter_run (sized : c.sendInfo.length = transferSize) {entry : MenuEntry}
    (stays : entry ≠ .quit) (readable : ∀ op ∈ entry.operation, op.Readable) :
    ∃ depositPrint c', (enter entry).run c = .ok (some depositPrint, c') ∧
      c'.sendInfo = formatted c.sendInfo entry ∧ c'.sends = c.sends := by
  have room : ∀ op ∈ entry.operation, op.Readable ∧ op.text.length < c.sendInfo.length := by
    intro op listed
    rw [sized]
    exact ⟨readable op listed, op.text_length (readable op listed)⟩
  have goesOn : ∃ depositPrint, some depositPrint = entry.entered := by
    cases entry with
    | quit => exact absurd rfl stays
    | _ => exact ⟨_, rfl⟩
  obtain ⟨depositPrint, answer⟩ := goesOn
  exact ⟨depositPrint, _, enter_ok.mpr ⟨room, answer, rfl⟩, rfl, rfl⟩

def MenuEntry.quits : MenuEntry → Bool
  | .quit => true
  | _ => false

/-- What was entered before the loop was left. -/
def beforeQuit (steps : List (MenuEntry × Exchange)) : List MenuEntry :=
  (steps.map Prod.fst).takeWhile fun entry => !entry.quits

/-- The buffer at every send. -/
def messages : Bytes → List MenuEntry → List Bytes
  | _, [] => []
  | sendInfo, entry :: rest =>
      formatted sendInfo entry :: messages (formatted sendInfo entry) rest

theorem beforeQuit_cons {entry : MenuEntry} (stays : entry ≠ .quit) (outcome : Exchange)
    (steps : List (MenuEntry × Exchange)) :
    beforeQuit ((entry, outcome) :: steps) = entry :: beforeQuit steps := by
  cases entry with
  | quit => exact absurd rfl stays
  | _ => rfl

theorem formatted_length {sendInfo : Bytes} (sized : sendInfo.length = transferSize)
    {entry : MenuEntry} (readable : ∀ op ∈ entry.operation, op.Readable) :
    (formatted sendInfo entry).length = transferSize := by
  unfold formatted
  cases listed : entry.operation with
  | none => exact sized
  | some op => exact printed_length sized (readable op listed)

/-- The entries as the loop reads them, up to the 4 that leaves it. -/
def entriesRead : Bool → List (MenuEntry × Exchange) → List MenuEntry
  | _, [] => []
  | good, (entry, _) :: rest =>
      if (entry.read good).quits then []
      else entry.read good :: entriesRead (good && entry.Fits) rest

theorem quits_iff {entry : MenuEntry} : entry.quits = true ↔ entry = .quit := by
  cases entry <;> simp [MenuEntry.quits]

theorem entriesRead_cons {good : Bool} {entry : MenuEntry} (stays : entry.read good ≠ .quit)
    (outcome : Exchange) (steps : List (MenuEntry × Exchange)) :
    entriesRead good ((entry, outcome) :: steps) =
      entry.read good :: entriesRead (good && entry.Fits) steps := by
  rw [entriesRead, if_neg fun quits => stays (quits_iff.mp quits)]

theorem entriesRead_quit {good : Bool} {entry : MenuEntry} (quits : entry.read good = .quit)
    (outcome : Exchange) (steps : List (MenuEntry × Exchange)) :
    entriesRead good ((entry, outcome) :: steps) = [] := by
  rw [entriesRead, if_pos (quits_iff.mpr quits)]

theorem entriesRead_fits {steps : List (MenuEntry × Exchange)}
    (fits : ∀ entry ∈ beforeQuit steps, entry.Fits) :
    entriesRead true steps = beforeQuit steps := by
  induction steps with
  | nil => rfl
  | cons step steps ih =>
      obtain ⟨entry, outcome⟩ := step
      by_cases quits : entry = .quit
      · subst quits
        rfl
      · rw [beforeQuit_cons quits] at fits ⊢
        have head := fits entry (List.mem_cons_self ..)
        rw [entriesRead_cons (show entry.read true ≠ .quit from quits), decide_eq_true head,
          Bool.and_self, ih fun other member => fits other (List.mem_cons_of_mem _ member)]
        rfl

/-- A session whose words fit returns, and has sent the buffer once for every entry. -/
theorem inputLoop_run {good : Bool} {steps : List (MenuEntry × Exchange)}
    (sized : c.sendInfo.length = transferSize)
    (readable : ∀ entry ∈ entriesRead good steps, ∀ op ∈ entry.operation, op.Readable) :
    ∃ left c', (inputLoop good steps).run c = .ok (left, c') ∧
      c'.sends = c.sends ++ messages c.sendInfo (entriesRead good steps) := by
  induction steps generalizing c good with
  | nil => exact ⟨false, c, rfl, (List.append_nil _).symm⟩
  | cons step steps ih =>
      obtain ⟨entry, outcome⟩ := step
      obtain ⟨_, c1, prompted, sendInfo1, sends1⟩ := prompt_silent c
      by_cases quits : entry.read good = .quit
      · refine ⟨true, { c1 with console := c1.console ++ ["取引を終了します.\n"] }, ?_, ?_⟩
        · rw [inputLoop, run_bind_of_ok prompted, quits]
          rfl
        · rw [entriesRead_quit quits]
          exact sends1.trans (List.append_nil _).symm
      · rw [entriesRead_cons quits] at readable
        rw [entriesRead_cons quits]
        have sized1 : c1.sendInfo.length = transferSize := by rw [sendInfo1, sized]
        have head := readable (entry.read good) (List.mem_cons_self ..)
        obtain ⟨depositPrint, c2, entered, sendInfo2, sends2⟩ := enter_run sized1 quits head
        obtain ⟨c3, exchanged, sendInfo3, sends3⟩ := exchange_run depositPrint outcome c2
        have buffer : c3.sendInfo = formatted c.sendInfo (entry.read good) := by
          rw [sendInfo3, sendInfo2, sendInfo1]
        have sized3 : c3.sendInfo.length = transferSize := by
          rw [buffer]
          exact formatted_length sized head
        obtain ⟨left, c4, rest, sends4⟩ := ih sized3 fun other member =>
          readable other (List.mem_cons_of_mem _ member)
        refine ⟨left, c4, ?_, ?_⟩
        · rw [inputLoop, run_bind_of_ok prompted, run_bind_of_ok entered]
          dsimp only
          rw [run_bind_of_ok exchanged]
          exact rest
        · rw [sends4, sends3, sends2, sends1, ← sendInfo3, buffer, List.append_assoc]
          rfl

/-- A session without an opcode beyond `int` sends once for every entry before the 4. -/
theorem clientMain_run {steps : List (MenuEntry × Exchange)}
    (sized : c.sendInfo.length = transferSize) (fits : ∀ entry ∈ beforeQuit steps, entry.Fits)
    (readable : ∀ entry ∈ beforeQuit steps, ∀ op ∈ entry.operation, op.Readable) :
    ∃ left c', (clientMain steps).run c = .ok (left, c') ∧
      c'.sends = c.sends ++ messages c.sendInfo (beforeQuit steps) := by
  have same := entriesRead_fits fits
  rw [← same] at readable ⊢
  exact inputLoop_run sized readable

theorem operation_isSome {entry : MenuEntry} :
    entry.operation.isSome ↔ entry.opcode ∈ [1, 2, 3] := by
  cases entry with
  | authentication name password => exact iff_of_true rfl (show (1 : Int) ∈ [1, 2, 3] by decide)
  | deposit amount => exact iff_of_true rfl (show (2 : Int) ∈ [1, 2, 3] by decide)
  | withdrawal amount => exact iff_of_true rfl (show (3 : Int) ∈ [1, 2, 3] by decide)
  | quit => exact iff_of_false nofun (show (4 : Int) ∉ [1, 2, 3] by decide)
  | other opcode unknown =>
      exact iff_of_false nofun fun known => unknown (List.mem_append_left [4] known)

theorem operation_fits {entry : MenuEntry} (known : entry.operation.isSome) : entry.Fits := by
  have opcode := operation_isSome.mp known
  simp only [List.mem_cons, List.not_mem_nil, or_false] at opcode
  unfold MenuEntry.Fits
  omega

/-- A client that has just been started; its buffers hold what the stack held. -/
def freshClient (sendInfo receiveData : Bytes) : Client := ⟨sendInfo, receiveData, false, 0, [], []⟩

def emptyReply : Exchange := .received [] (Nat.zero_le _)

def alice : Word := ⟨ascii "alice", by decide, by decide, by decide +kernel⟩

def secret : Word := ⟨ascii "secret", by decide, by decide, by decide +kernel⟩

end SeccapBank
