import SeccapBank.EnclaveMachine

set_option autoImplicit false

/- An untrusted side that owns the storage: it makes calls one at a time, ends the enclave
and starts it again, and puts any content in the account file whenever it likes. -/
namespace SeccapBank

open CStrings Buffers Fallible Runs Ledgers

variable (sgx : Sgx) {w w' start : World}

/-- What the untrusted side can do. A call that is cut short has handed out its list
before, and counts as a call that is followed by a new start. -/
inductive HostAct where
  | call (call : Ecall)
  | replace (content : Option Bytes)
  | relaunch

/-- A label of a host step: what was done, and what a call returned. -/
inductive HostMove where
  | call (call : Ecall) (returned : Returned)
  | replace (content : Option Bytes)
  | relaunch
  deriving DecidableEq

def HostStep (w : World) : HostMove → World → Prop
  | .call call returned, w' => EcallStep sgx w (call, returned) w'
  | .replace content, w' => w' = { w with accountFile := content }
  -- the heap and the pointers of the enclave are gone
  | .relaunch, w' => w' = { w with heap := [], dealManager := none }

abbrev HostTransition := Transition World HostMove

abbrev HostRun := Run (HostStep sgx)

def HostAct.exec : HostAct → World → Except Fault (HostMove × World)
  | .call made, w => (made.exec sgx).run w |>.map fun done => (.call made done.1, done.2)
  | .replace content, w => .ok (.replace content, { w with accountFile := content })
  | .relaunch, w => .ok (.relaunch, { w with heap := [], dealManager := none })

/-- The history of a list of acts, as long as every call returns. -/
def hostTrace : List HostAct → World → Except Fault (List HostTransition × World)
  | [], w => .ok ([], w)
  | act :: acts, w => do
      let (move, w1) ← act.exec sgx w
      let (history, w2) ← hostTrace acts w1
      return (⟨w, move, w1⟩ :: history, w2)

def HostMove.call? : HostMove → Option Ecall
  | .call made _ => some made
  | _ => none

/-- The calls that were made, in order. -/
def callsMade (history : List HostTransition) : List Ecall :=
  history.filterMap fun move => move.label.call?

/-- A move that sealed a list. -/
def Sealed (move : HostTransition) : Prop := move.pre.sealCalls < move.post.sealCalls

/-- The text that is sealed of a list, whose size is narrowed to 16 bits. -/
def sealedText (accountList : List Account) : Bytes :=
  (marshalled accountList).take (UInt16.ofNat (marshalled accountList).length).toNat

/-- If there is a content and it is accepted, then its text was sealed in the history. -/
def Genuine (history : List HostTransition) (content : Bytes) : Prop :=
  content ≠ [] → ∀ texts ∈ sgx.unsealData content,
    ∃ move ∈ history, Sealed move ∧ texts.2 = sealedText move.post.accounts

/-- Every content that an initialisation finds in the file is genuine by then. -/
def UnforgedFrom (earlier : List HostTransition) : List HostTransition → Prop
  | [] => True
  | move :: later =>
      (move.label.call? = some .initManager →
        ∀ content ∈ move.pre.accountFile, Genuine sgx earlier content) ∧
          UnforgedFrom (earlier ++ [move]) later

def Unforged : List HostTransition → Prop := UnforgedFrom sgx []

/-- Every list that is sealed fits in a blob of at most 16 bits of size. -/
def SealsWithin (history : List HostTransition) : Prop :=
  ∀ move ∈ history, Sealed move → sealedLength sgx .new move.post.accounts ≤ 65535

/-- What is assumed of a history: names and passwords without separators, lists that fit,
and a sealing that cannot be forged. -/
structure Admissible (history : List HostTransition) : Prop where
  separated : ∀ call ∈ callsMade history, call.CommaFree
  within : SealsWithin sgx history
  unforged : Unforged sgx history

section Decidable

instance (move : HostTransition) : Decidable (Sealed move) := inferInstanceAs (Decidable (_ < _))

instance (history : List HostTransition) (content : Bytes) :
    Decidable (Genuine sgx history content) :=
  inferInstanceAs (Decidable (_ → ∀ texts ∈ sgx.unsealData content, _))

instance decidableUnforgedFrom : (earlier history : List HostTransition) →
    Decidable (UnforgedFrom sgx earlier history)
  | _, [] => inferInstanceAs (Decidable True)
  | earlier, move :: later =>
      have := decidableUnforgedFrom (earlier ++ [move]) later
      inferInstanceAs (Decidable ((_ → ∀ content ∈ move.pre.accountFile, _) ∧ _))

instance (history : List HostTransition) : Decidable (Unforged sgx history) :=
  decidableUnforgedFrom sgx [] history

instance (history : List HostTransition) : Decidable (SealsWithin sgx history) :=
  inferInstanceAs (Decidable (∀ move ∈ history, Sealed move → _ ≤ _))

instance (history : List HostTransition) : Decidable (Admissible sgx history) :=
  decidable_of_iff ((∀ call ∈ callsMade history, call.CommaFree) ∧ SealsWithin sgx history ∧
      Unforged sgx history)
    ⟨fun ⟨separated, within, unforged⟩ => ⟨separated, within, unforged⟩,
      fun ⟨separated, within, unforged⟩ => ⟨separated, within, unforged⟩⟩

end Decidable

/-- The lengths in an accepted blob are those of its texts. -/
def Sgx.Measured : Prop := ∀ blob macTxt plain, sgx.unsealData blob = some (macTxt, plain) →
  (sgx.getAddMacTxtLen blob).toNat = macTxt.length ∧
    (sgx.getEncryptTxtLen blob).toNat = plain.length

theorem measured_of_authentic (doc : sgx.Documented) (authentic : sgx.Authentic) :
    sgx.Measured := by
  intro blob macTxt plain accepted
  obtain ⟨call, macTxt', plain', size, sealed⟩ := authentic blob _ accepted
  cases accepted.symm.trans (doc.unseal_seal _ _ _ _ _ sealed)
  exact ⟨doc.mac_len _ _ _ _ _ sealed, doc.plain_len _ _ _ _ _ sealed⟩

/-- The ledger that some of the calls, in their order, lead to on an honest bank. -/
abbrev LedgerExplained (calls : List Ecall) (l : Ledger Bytes Bytes) : Prop :=
  Explained passwordAccepts maxDeposits (calls.map Ecall.op) l

theorem sealedText_eq {accountList : List Account}
    (fits : sealedLength sgx .new accountList ≤ 65535) :
    sealedText accountList = marshalled accountList := by
  unfold sealedLength at fits
  have small : (marshalled accountList).length < 2 ^ 16 := by omega
  rw [sealedText, UInt16.toNat_ofNat_of_lt' small, List.take_length]

theorem unsealing_accepted (measured : sgx.Measured) {content macTxt plain data : Bytes}
    {size : UInt16} (accepted : sgx.unsealData content = some (macTxt, plain))
    (returned : (unsealing sgx .new content).run w = .ok ((data, size), w')) :
    data = plain ∧ size = UInt16.ofNat plain.length := by
  obtain ⟨_, length⟩ := measured content macTxt plain accepted
  have whole : blit (calloc plain.length) plain = plain := blit_length_of_le (by simp)
  obtain ⟨unsealed, w1, decrypted, rest⟩ := run_bind_ok.mp returned
  obtain ⟨_, w2, _, final⟩ := run_bind_ok.mp rest
  cases final
  by_cases short : content.length < sgx.headerSize
  · simp [decrypt, short] at decrypted
  · simp only [decrypt, short, ↓reduceIte, accepted, length, whole] at decrypted
    cases decrypted
    exact ⟨rfl, rfl⟩

/-- What an initialisation loads from a genuine content is nothing, or a list that was
sealed in the history. -/
theorem genuine_loads (measured : sgx.Measured) {history : List HostTransition} {content : Bytes}
    (genuine : Genuine sgx history content) (within : SealsWithin sgx history)
    (clean : ∀ move ∈ history, Sealed move → ∀ account ∈ move.post.accounts,
      CommaFree account) {accountList : List Account} (loads : Loads sgx content accountList) :
    accountList = [] ∨ ∃ move ∈ history, Sealed move ∧ accountList = move.post.accounts := by
  rcases loads with ⟨_, none⟩ | ⟨nonempty, data, size, before, after, unsealed, load⟩
  · exact .inl none
  · cases accepted : sgx.unsealData content with
    | none =>
        -- the parser has run over zeros, and has not returned
        have zeros := unsealing_rejected sgx accepted unsealed
        have noComma : comma ∉ data := by
          intro member
          rw [zeros] at member
          exact absurd (mem_calloc member) (by decide)
        rw [loadAccountList_clean noComma] at load
        cases load
    | some texts =>
        obtain ⟨macTxt, plain⟩ := texts
        obtain ⟨move, member, stored, text⟩ := genuine nonempty (macTxt, plain) accepted
        obtain rfl : plain = sealedText move.post.accounts := text
        have fits := within move member stored
        rw [sealedText_eq sgx fits] at accepted
        obtain ⟨rfl, rfl⟩ := unsealing_accepted sgx measured accepted unsealed
        have small : (UInt16.ofNat (marshalled move.post.accounts).length).toNat =
            (marshalled move.post.accounts).length := by
          unfold sealedLength at fits
          apply UInt16.toNat_ofNat_of_lt'
          show _ < 2 ^ 16
          omega
        refine .inr ⟨move, member, stored, ?_⟩
        rw [small] at load
        by_cases empty : move.post.accounts = []
        · rw [empty, loadAccountList_clean (by simp [marshalled])] at load
          cases load
        · rw [loadAccountList_marshalled empty (clean move member stored)] at load
          exact (Except.ok.inj load).symm

/-- A list that comes from separated calls is not cut by separators. -/
theorem explained_clean {calls : List Ecall} (explained : LedgerExplained calls w.ledger)
    (separated : ∀ call ∈ calls, call.CommaFree) : ∀ account ∈ w.accounts, CommaFree account := by
  intro account member
  have identity : (account.name, account.password) ∈ w.ledger.identities := by
    rw [ledger_identities]
    exact List.mem_map_of_mem member
  obtain ⟨call, made, entered⟩ := List.mem_map.mp (explained.entered identity)
  cases call with
  | newAccount name password =>
      obtain ⟨named, given⟩ := Op.enter.inj entered
      have clean : comma ∉ name.bytes ∧ comma ∉ password.bytes := separated _ made
      rwa [named, given] at clean
  | _ => cases entered

/-- What holds of the enclave along the history: its ledger, and that of every list that it
has sealed, comes from some of the calls that were made. -/
structure RolledBack (history : List HostTransition) (w : World) : Prop where
  running : w.dealManager = none ∨ ∃ manager, WellFormed w manager
  explained : LedgerExplained (callsMade history) w.ledger
  explainedSealed : ∀ move ∈ history, Sealed move →
    LedgerExplained (callsMade history) move.post.ledger

theorem callsMade_append (history : List HostTransition) (move : HostTransition) :
    callsMade (history ++ [move]) = callsMade history ++ move.label.call?.toList := by
  rw [callsMade, List.filterMap_append, callsMade]
  cases made : move.label.call? <;> simp [made]

theorem ledger_started (absent : w.dealManager = none) : w.ledger = .blank := by
  simp [World.ledger, World.accounts, World.currentIndex, absent, Ledger.blank]

section Step

variable {history : List HostTransition} {label : HostMove} {call : Ecall} {returned : Returned}

/-- A list that is sealed by a move is the one that the move leaves. -/
theorem RolledBack.extend (back : RolledBack history w)
    (running : w'.dealManager = none ∨ ∃ manager, WellFormed w' manager)
    (explained : LedgerExplained (callsMade (history ++ [⟨w, label, w'⟩])) w'.ledger) :
    RolledBack (history ++ [⟨w, label, w'⟩]) w' where
  running := running
  explained := explained
  explainedSealed move member stored := by
    rcases List.mem_append.mp member with old | new
    · refine (back.explainedSealed move old stored).mono (List.Sublist.map _ ?_)
      rw [callsMade_append]
      exact List.sublist_append_left _ _
    · rwa [List.mem_singleton.mp new]

/-- A call that returns has returned what an honest bank answers behind some of the calls
made before, and has left the ledger that this bank has then. -/
theorem call_explained (measured : sgx.Measured) (back : RolledBack history w)
    (separated : ∀ call ∈ callsMade history, call.CommaFree) (within : SealsWithin sgx history)
    (genuine : call = .initManager → ∀ content ∈ w.accountFile, Genuine sgx history content)
    (step : EcallStep sgx w (call, returned) w') :
    (∃ manager, WellFormed w' manager) ∧ ∃ l answer, LedgerExplained (callsMade history) l ∧
      ledgerPerform l call.op = some (answer, w'.ledger) ∧ returned = answerReturned answer := by
  by_cases opening : call = .initManager
  · subst opening
    obtain ⟨result, inner, rfl⟩ := run_map_ok.mp step
    obtain ⟨rfl, content, accountList, lines, file, loads, rfl⟩ := initManager_cases sgx inner
    have wf : WellFormed ((w.install accountList).print lines) (installedManager w accountList) :=
      (install_wellFormed w accountList).of_frame rfl rfl
    have loaded : ((w.install accountList).print lines).ledger =
        ⟨accountList.map Account.entry, none⟩ := by
      have accounts : ((w.install accountList).print lines).accounts = accountList :=
        install_accounts w accountList
      rw [World.ledger, accounts, currentIndex_none wf.present rfl]
    refine ⟨⟨_, wf⟩, ?_⟩
    rw [loaded]
    rcases genuine_loads sgx measured (genuine rfl content file) within (fun move member stored =>
      explained_clean (back.explainedSealed move member stored) separated) loads with
      rfl | ⟨move, member, stored, rfl⟩
    · exact ⟨.blank, .granted, explained_blank, rfl, rfl⟩
    · exact ⟨move.post.ledger, .granted, back.explainedSealed move member stored, rfl, rfl⟩
  · rcases back.running with absent | ⟨manager, wf⟩
    · cases (started_null sgx absent opening).symm.trans step
    · obtain ⟨manager', _, wf', _⟩ := ecall_refines sgx wf opening step
      obtain ⟨answer, told, performed⟩ := ecall_performed sgx wf opening step
      exact ⟨⟨manager', wf'⟩, w.ledger, answer, back.explained, performed, told⟩

theorem rolledBack_step (measured : sgx.Measured) (back : RolledBack history w)
    (separated : ∀ call ∈ callsMade history, call.CommaFree) (within : SealsWithin sgx history)
    (genuine : label.call? = some .initManager →
      ∀ content ∈ w.accountFile, Genuine sgx history content)
    (step : HostStep sgx w label w') : RolledBack (history ++ [⟨w, label, w'⟩]) w' := by
  cases label with
  | call call returned =>
      obtain ⟨wf', l, answer, explained, performed, _⟩ := call_explained sgx measured back separated
        within (fun opening => genuine (congrArg some opening)) step
      refine back.extend (.inr wf') ?_
      rw [callsMade_append]
      have next := explained.perform performed
      rwa [LedgerExplained, List.map_append]
  | replace content =>
      obtain rfl : w' = { w with accountFile := content } := step
      refine back.extend ?_ ?_
      · exact back.running.imp_right fun ⟨manager, wf⟩ => ⟨manager, wf.of_frame rfl rfl⟩
      · rw [callsMade_append]
        refine Explained.mono ?_ (List.Sublist.map _ (List.sublist_append_left _ _))
        exact back.explained
  | relaunch =>
      obtain rfl : w' = { w with heap := [], dealManager := none } := step
      refine back.extend (.inl rfl) ?_
      rw [ledger_started rfl]
      exact explained_blank

theorem callsMade_front {front back : List HostTransition} :
    (callsMade front).Sublist (callsMade (front ++ back)) := by
  rw [callsMade, callsMade, List.filterMap_append]
  exact List.sublist_append_left _ _

theorem unforgedFrom_append (earlier front back : List HostTransition) :
    UnforgedFrom sgx earlier (front ++ back) ↔
      UnforgedFrom sgx earlier front ∧ UnforgedFrom sgx (earlier ++ front) back := by
  induction front generalizing earlier with
  | nil => simp [UnforgedFrom]
  | cons move front ih =>
      rw [List.cons_append, UnforgedFrom, UnforgedFrom, ih, and_assoc, List.append_assoc]
      rfl

theorem Admissible.front {front back : List HostTransition}
    (admissible : Admissible sgx (front ++ back)) : Admissible sgx front where
  separated call made := admissible.separated call (callsMade_front.subset made)
  within move member := admissible.within move (List.mem_append_left _ member)
  unforged := ((unforgedFrom_append sgx [] front back).mp admissible.unforged).1

theorem Admissible.genuine {front back : List HostTransition} {move : HostTransition}
    (admissible : Admissible sgx (front ++ move :: back))
    (opening : move.label.call? = some .initManager) :
    ∀ content ∈ move.pre.accountFile, Genuine sgx front content :=
  ((unforgedFrom_append sgx [] front (move :: back)).mp admissible.unforged).2.1 opening

theorem rolledBack_run (measured : sgx.Measured) (fresh : start.dealManager = none)
    (admissible : Admissible sgx history) (run : HostRun sgx start history w) :
    RolledBack history w := by
  induction run with
  | nil =>
      refine ⟨.inl fresh, ?_, fun _ member => absurd member List.not_mem_nil⟩
      rw [ledger_started fresh]
      exact explained_blank
  | snoc _ last ih =>
      have earlier := admissible.front sgx
      exact rolledBack_step sgx measured (ih earlier) earlier.separated earlier.within
        (admissible.genuine sgx) last

/-- Rolling back is all that the owner of the storage can do: over every admissible history,
each call that returns has returned what an honest bank answers behind some of the calls made
before it, in their order, and has left the accounts and session that this bank has then. -/
theorem rollback_explains (measured : sgx.Measured) (fresh : start.dealManager = none)
    (admissible : Admissible sgx history) (run : HostRun sgx start history w)
    {earlier later : List HostTransition} {move : HostTransition}
    (whole : history = earlier ++ move :: later) (label : move.label = .call call returned) :
    ∃ l answer, LedgerExplained (callsMade earlier) l ∧
      ledgerPerform l call.op = some (answer, move.post.ledger) ∧
        returned = answerReturned answer := by
  subst whole
  obtain ⟨step, before, _⟩ := run.cut
  have front := admissible.front sgx
  have back := rolledBack_run sgx measured fresh front before
  rw [label] at step
  refine (call_explained sgx measured back front.separated front.within
    (fun opening => admissible.genuine sgx ?_) step).2
  rw [label, opening]
  rfl

/-- The owner of the storage cannot make money: in every state of an admissible history all
balances together are at most the amounts of all deposits asked for. -/
theorem rollback_total (measured : sgx.Measured) (fresh : start.dealManager = none)
    (admissible : Admissible sgx history) (run : HostRun sgx start history w) :
    w.ledger.total ≤ ((callsMade history).map fun call => call.op.payment).sum := by
  have bound := (rolledBack_run sgx measured fresh admissible run).explained.total
  rwa [List.map_map] at bound

/-- The blob of a list that was stored is genuine, and holds the list. -/
theorem stored_blob (doc : sgx.Documented) (reliable : sgx.Reliable) {move : HostTransition}
    (member : move ∈ history) (stored : Sealed move)
    (fits : sealedLength sgx .new move.post.accounts ≤ 65535)
    (nonempty : move.post.accounts ≠ []) :
    ∃ blob, Genuine sgx history blob ∧ FileHolds sgx blob move.post.accounts := by
  have size : (UInt32.ofNat (sealedLength sgx .new move.post.accounts)).toNat =
      sealedLength sgx .new move.post.accounts := by
    apply UInt32.toNat_ofNat_of_lt'
    show _ < 2 ^ 32
    omega
  obtain ⟨blob, sealed⟩ := reliable move.pre.sealCalls (cstr SealingUnsealing.new.addMacTxt)
    (marshalled move.post.accounts) _ (marshalled_eq_nil.not.mpr nonempty) size
  refine ⟨blob, fun _ texts accepted => ⟨move, member, stored, ?_⟩,
    .inr ⟨nonempty, fits, _, _, sealed⟩⟩
  rw [sealedText_eq sgx fits]
  cases accepted.symm.trans (doc.unseal_seal _ _ _ _ _ sealed)
  rfl

/-- A list that a genuine content makes the enclave load. -/
def Reloads (history : List HostTransition) (w : World) (accountList : List Account) : Prop :=
  ∃ content returned w', Genuine sgx history content ∧
    EcallStep sgx { w with accountFile := some content } (.initManager, returned) w' ∧
      w'.accounts = accountList

/-- What a restart can bring up behind an admissible history is no account at all, and every
list that was ever stored: each of them, and nothing else. -/
theorem rollback_iff (doc : sgx.Documented) (reliable : sgx.Reliable) (measured : sgx.Measured)
    (fresh : start.dealManager = none) (admissible : Admissible sgx history)
    (run : HostRun sgx start history w) (accountList : List Account) :
    Reloads sgx history w accountList ↔
      accountList = [] ∨ ∃ move ∈ history, Sealed move ∧ move.post.accounts = accountList := by
  have back := rolledBack_run sgx measured fresh admissible run
  have clean (move : HostTransition) (member : move ∈ history) (stored : Sealed move) :=
    explained_clean (back.explainedSealed move member stored) admissible.separated
  constructor
  · rintro ⟨content, returned, w', genuine, step, rfl⟩
    obtain ⟨result, inner, rfl⟩ := run_map_ok.mp step
    obtain ⟨_, content', loaded, lines, file, loads, rfl⟩ := initManager_cases sgx inner
    obtain rfl := Option.some.inj file
    have accounts : ((({ w with accountFile := some content } : World).install loaded).print
        lines).accounts = loaded := install_accounts _ loaded
    rw [accounts]
    exact (genuine_loads sgx measured genuine admissible.within clean loads).imp_right
      fun ⟨move, member, stored, same⟩ => ⟨move, member, stored, same.symm⟩
  · intro known
    obtain ⟨content, genuine, holds, clean⟩ :
        ∃ content, Genuine sgx history content ∧ FileHolds sgx content accountList ∧
          ∀ account ∈ accountList, CommaFree account := by
      by_cases empty : accountList = []
      · subst empty
        exact ⟨[], fun nonempty => absurd rfl nonempty, .inl ⟨rfl, rfl⟩,
          fun _ member => absurd member List.not_mem_nil⟩
      · obtain ⟨move, member, stored, rfl⟩ := known.resolve_left empty
        obtain ⟨blob, genuine, holds⟩ := stored_blob sgx doc reliable member stored
          (admissible.within move member stored) empty
        exact ⟨blob, genuine, holds, clean move member stored⟩
    obtain ⟨lines, restarted⟩ := holds.restart sgx doc clean
      (w := { w with accountFile := some content }) rfl
    exact ⟨content, _, _, genuine, restarted, install_accounts _ accountList⟩

end Step

section Replay

theorem hostTrace_run {acts : List HostAct} {history : List HostTransition}
    (traced : hostTrace sgx acts w = .ok (history, w')) : HostRun sgx w history w' := by
  induction acts generalizing w history with
  | nil =>
      cases traced
      exact .nil
  | cons act acts ih =>
      obtain ⟨⟨move, w1⟩, first, rest⟩ := bind_ok traced
      obtain ⟨⟨behind, w2⟩, later, final⟩ := bind_ok rest
      cases final
      have step : HostStep sgx w move w1 := by
        cases act with
        | call made =>
            obtain ⟨done, returned, same⟩ := map_ok first
            cases same
            exact returned
        | replace content =>
            cases first
            rfl
        | relaunch =>
            cases first
            rfl
      have start : HostRun sgx w [⟨w, move, w1⟩] w1 := Run.nil.snoc step
      exact start.append (ih later)

/-- Money is paid in and out again, and the file of the time in between is put back. -/
def replayActs : List HostAct :=
  [.call .initManager, .call ownerLogin, .call (.myDeposit 5), .call (.myWithdraw 5),
    .replace (some (ClearSealing.frame (littleEndian 8 1) []
      (marshalled [Account.new (ascii "a") (ascii "p") 5]))),
    .relaunch, .call .initManager, .call ownerLogin, .call .myInquiry]

/-- The money that was paid out is back. -/
theorem replay_history : ∃ earlier move w,
    HostRun clearSealing (.boot []) (earlier ++ [move]) w ∧
      Admissible clearSealing (earlier ++ [move]) ∧ move.label = .call .myInquiry (.value 5) ∧
        w.accounts = [Account.new (ascii "a") (ascii "p") 5] := by
  have checked : (hostTrace clearSealing replayActs (.boot [])).map (fun t =>
      (decide (Admissible clearSealing t.1), t.1.getLast?.map fun move => move.label,
        t.2.accounts)) =
      .ok (true, some (.call .myInquiry (.value 5)), [Account.new (ascii "a") (ascii "p") 5]) := by
    decide +kernel
  obtain ⟨⟨history, w⟩, traced, facts⟩ := map_ok checked
  simp only [Prod.mk.injEq, decide_eq_true_eq, Option.map_eq_some_iff] at facts
  obtain ⟨admissible, ⟨move, final, label⟩, accounts⟩ := facts
  obtain ⟨earlier, rfl⟩ := List.getLast?_eq_some_iff.mp final
  exact ⟨earlier, move, w, hostTrace_run clearSealing traced, admissible, label, accounts⟩

theorem clearSealing_measured : clearSealing.Measured :=
  measured_of_authentic clearSealing clearSealing_documented clearSealing_authentic

theorem rollback_explains_replay : ∃ (earlier : List HostTransition) (move : HostTransition)
    (l : Ledger Bytes Bytes) (answer : Answer), move.label = .call .myInquiry (.value 5) ∧
      LedgerExplained (callsMade earlier) l ∧
        ledgerPerform l .inquire = some (answer, move.post.ledger) ∧
          Returned.value 5 = answerReturned answer := by
  obtain ⟨earlier, move, w, run, admissible, label, _⟩ := replay_history
  obtain ⟨l, answer, explained⟩ :=
    rollback_explains clearSealing clearSealing_measured rfl admissible run rfl label
  exact ⟨earlier, move, l, answer, label, explained⟩

theorem rollback_total_replay : ∃ history w, HostRun clearSealing (.boot []) history w ∧
    w.accounts = [Account.new (ascii "a") (ascii "p") 5] ∧
      w.ledger.total ≤ ((callsMade history).map fun call => call.op.payment).sum := by
  obtain ⟨earlier, move, w, run, admissible, _, accounts⟩ := replay_history
  exact ⟨_, w, run, accounts,
    rollback_total clearSealing clearSealing_measured rfl admissible run⟩

/-- Before the file is put back: the balance that was paid out can come up again, one that
never was cannot. -/
theorem rollback_iff_replay : ∃ history w, HostRun clearSealing (.boot []) history w ∧
    w.accounts = [Account.new (ascii "a") (ascii "p") 0] ∧
      Reloads clearSealing history w [Account.new (ascii "a") (ascii "p") 5] ∧
        ¬ Reloads clearSealing history w [Account.new (ascii "a") (ascii "p") 7] := by
  have checked : (hostTrace clearSealing (replayActs.take 4) (.boot [])).map (fun t =>
      (decide (Admissible clearSealing t.1), t.2.accounts,
        (t.1.filter fun move => Sealed move).map fun move => move.post.accounts)) =
      .ok (true, [Account.new (ascii "a") (ascii "p") 0],
        [[Account.new (ascii "a") (ascii "p") 0], [Account.new (ascii "a") (ascii "p") 5],
          [Account.new (ascii "a") (ascii "p") 0]]) := by
    decide +kernel
  obtain ⟨⟨history, w⟩, traced, facts⟩ := map_ok checked
  simp only [Prod.mk.injEq, decide_eq_true_eq] at facts
  obtain ⟨admissible, accounts, stored⟩ := facts
  have known (accountList : List Account) :
      (∃ move ∈ history, Sealed move ∧ move.post.accounts = accountList) ↔
        accountList ∈ (history.filter fun move => Sealed move).map fun move =>
          move.post.accounts := by
    simp [and_assoc]
  have reloads := rollback_iff clearSealing clearSealing_documented clearSealing_reliable
    clearSealing_measured rfl admissible (hostTrace_run clearSealing traced)
  refine ⟨history, w, hostTrace_run clearSealing traced, accounts, (reloads _).mpr (.inr ?_), ?_⟩
  · rw [known, stored]
    decide
  · rw [reloads, known, stored]
    decide

end Replay

end SeccapBank
