import SeccapBank.ServerLives
import SeccapBank.General.Book

set_option autoImplicit false

/- Different customers can be served in any order: what one of them is told, and what is left
of the accounts, does not depend on who came before. -/
namespace SeccapBank

open CStrings Buffers Fallible Decimals Runs Ledgers Scripts Keyed

variable {sgx : Sgx} {l l' : Ledger Bytes Bytes} {received : List Received}

section Scripts

/-- What the desk asks of the ledger to reply to a request. -/
def replyScript : Request → Script (Op Bytes Bytes) Answer Reply
  | .login name password => .ask (.enter name.bytes password.bytes) fun entered =>
      match entered with
      | .granted => .ask .inquire fun asked => .done (some (.loginSuccess (answerValue asked)))
      | _ => .done (some .loginFail)
  | .deposit amount => .ask (.deposit amount.toNat) fun dealt =>
      .done (some (.balance (answerValue dealt)))
  | .withdraw amount => .ask (.withdraw amount.toNat) fun dealt =>
      .done (some (if answerValue dealt < amount then .tooBig else .balance (answerValue dealt)))
  | .stop => .done none
  | .other => .done none

def performScript : Request → Script (Op Bytes Bytes) Answer (List Reply × Bool)
  | .stop => .done (some ([], true))
  | .other => .done (some ([], false))
  | request => (replyScript request).bind fun reply =>
      .done (if reply.Fits then some ([reply], false) else none)

def receiveScript : Received → Script (Op Bytes Bytes) Answer (List Reply × Bool)
  | .data chunk => (requestOf chunk.buf).toOption.elim (.done none) performScript
  | .closed => .done (some ([], false))
  | .failed => .done (some ([], false))

def serveScript : List Received → Script (Op Bytes Bytes) Answer (List Reply × Bool)
  | [] => .done (some ([], false))
  | data :: rest => (receiveScript data).bind fun first =>
      if first.2 then .done (some first)
      else (serveScript rest).bind fun behind => .done (some (first.1 ++ behind.1, behind.2))

/-- A life of the server, in which everybody is logged out at first. -/
def lifeScript (received : List Received) : Script (Op Bytes Bytes) Answer (List Reply) :=
  .ask .reopen fun _ => (serveScript received).bind fun served => .done (some served.1)

theorem replyScript_run (request : Request) (l : Ledger Bytes Bytes) :
    (replyScript request).run ledgerPerform l = deskReply l request := by
  cases request with
  | login name password =>
      rw [replyScript, Script.run, deskReply]
      congr 1
      funext entered
      obtain ⟨answer, l1⟩ := entered
      cases answer with
      | granted =>
          dsimp only
          rw [Script.run]
          cases ledgerPerform l1 .inquire <;> rfl
      | _ => rfl
  | deposit amount => rfl
  | withdraw amount => rfl
  | _ => rfl

theorem performScript_run (request : Request) (l : Ledger Bytes Bytes) :
    ((performScript request).run ledgerPerform l).map (fun served =>
      (served.1.1, served.1.2, served.2)) = deskPerform l request := by
  have replied : (((replyScript request).bind fun reply =>
      .done (if reply.Fits then some ([reply], false) else none)).run ledgerPerform l).map
        (fun served : (List Reply × Bool) × _ => (served.1.1, served.1.2, served.2)) =
      (deskReply l request).bind fun answered =>
        if answered.1.Fits then some ([answered.1], false, answered.2) else none := by
    rw [run_bind, replyScript_run, Option.map_bind]
    congr 1
    funext answered
    simp only [Function.comp_apply, Script.run]
    split <;> rfl
  cases request with
  | stop => rfl
  | other => rfl
  | _ => exact replied

theorem receiveScript_run (data : Received) (l : Ledger Bytes Bytes) :
    ((receiveScript data).run ledgerPerform l).map (fun served =>
      (served.1.1, served.1.2, served.2)) = deskReceive l data := by
  cases data with
  | data chunk =>
      rw [receiveScript, deskReceive]
      cases (requestOf chunk.buf).toOption with
      | none => rfl
      | some request => exact performScript_run request l
  | closed => rfl
  | failed => rfl

/-- The desk is a script for the ledger. -/
theorem serveScript_run (received : List Received) (l : Ledger Bytes Bytes) :
    ((serveScript received).run ledgerPerform l).map (fun served =>
      (served.1.1, served.1.2, served.2)) = deskServe l received := by
  induction received generalizing l with
  | nil => rfl
  | cons data rest ih =>
      rw [serveScript, run_bind, deskServe, ← receiveScript_run, Option.map_bind, Option.bind_map]
      congr 1
      funext first
      simp only [Function.comp_apply]
      split
      · rfl
      · rw [run_bind, ← ih, Option.map_bind, Option.map_map]
        cases (serveScript rest).run ledgerPerform first.2 <;> rfl

theorem lives_runs (lives : List (List Received)) (l : Ledger Bytes Bytes) :
    runs ledgerPerform (lives.map lifeScript) l = deskLives l lives := by
  induction lives generalizing l with
  | nil => rfl
  | cons received lives ih =>
      have life : (lifeScript received).run ledgerPerform l =
          (deskServe ⟨l.entries, none⟩ received).map fun first => (first.1, first.2.2) := by
        rw [← serveScript_run, Option.map_map, lifeScript, Script.run]
        change ((serveScript received).bind _).run ledgerPerform ⟨l.entries, none⟩ = _
        rw [run_bind]
        cases (serveScript received).run ledgerPerform ⟨l.entries, none⟩ <;> rfl
      rw [List.map_cons, runs, deskLives, life, Option.bind_map]
      congr 1
      funext first
      exact congrArg (Option.map _) (ih first.2.2)

end Scripts

section Lives

/-- A request that logs in under no other name. -/
def Request.Own (owner : Bytes) : Request → Prop
  | .login name _ => name.bytes = owner
  | _ => True

/-- Whatever the parser makes of the received bytes, it is no login under another name. -/
def Received.Own (owner : Bytes) : Received → Prop
  | .data chunk => ∀ request ∈ (requestOf chunk.buf).toOption, request.Own owner
  | _ => True

theorem replyScript_own {owner : Bytes} {request : Request} (own : request.Own owner) :
    (replyScript request).All (Op.Own owner) := by
  cases request with
  | login name password =>
      refine ⟨own, fun entered => ?_⟩
      cases entered with
      | granted => exact ⟨trivial, fun _ => trivial⟩
      | _ => trivial
  | deposit amount => exact ⟨trivial, fun _ => trivial⟩
  | withdraw amount => exact ⟨trivial, fun _ => trivial⟩
  | stop => trivial
  | other => trivial

theorem performScript_own {owner : Bytes} {request : Request} (own : request.Own owner) :
    (performScript request).All (Op.Own owner) := by
  have replied : ((replyScript request).bind fun reply =>
      .done (if reply.Fits then some ([reply], false) else none)).All (Op.Own owner) :=
    (replyScript_own own).bind fun _ => trivial
  cases request with
  | stop => trivial
  | other => trivial
  | _ => exact replied

theorem serveScript_own {owner : Bytes} (own : ∀ data ∈ received, data.Own owner) :
    (serveScript received).All (Op.Own owner) := by
  induction received with
  | nil => trivial
  | cons data rest ih =>
      obtain ⟨here, later⟩ := List.forall_mem_cons.mp own
      have heard : (receiveScript data).All (Op.Own owner) := by
        cases data with
        | data chunk =>
            rw [receiveScript]
            cases parsed : (requestOf chunk.buf).toOption with
            | none => trivial
            | some request => exact performScript_own (here request parsed)
        | closed => trivial
        | failed => trivial
      refine heard.bind fun first => ?_
      split
      · trivial
      · exact (ih later).bind fun _ => trivial

/-- A life of the server in which nobody but the owner logs in. -/
structure Life where
  owner : Bytes
  stack : Stack
  received : List Received
  own : ∀ data ∈ received, data.Own owner

def Life.process (life : Life) : Stack × List Received := (life.stack, life.received)

def Life.turn (life : Life) : Turn Bytes Bytes (List Reply) where
  owner := life.owner
  script := lifeScript life.received
  own := ⟨trivial, fun _ => (serveScript_own life.own).bind fun _ => trivial⟩
  resets := trivial

theorem grown_kept {start l l' : Ledger Bytes Bytes} {op : Op Bytes Bytes} {answer : Answer}
    (kept : l.Sound ∧ start.identities <+: l.identities)
    (performed : ledgerPerform l op = some (answer, l')) :
    l'.Sound ∧ start.identities <+: l'.identities := by
  obtain ⟨step, sound⟩ := perform_step kept.1 performed
  exact ⟨sound, kept.2.trans step.identities_grow⟩

theorem run_grows {ρ : Type} {script : Script (Op Bytes Bytes) Answer ρ} {result : ρ}
    (sound : l.Sound) (ran : script.run ledgerPerform l = some (result, l')) :
    l'.Sound ∧ l.identities <+: l'.identities :=
  run_keeps (P := fun k => k.Sound ∧ l.identities <+: k.identities) grown_kept
    ⟨sound, List.prefix_rfl⟩ ran

theorem runs_grow {ρ : Type} {scripts : List (Script (Op Bytes Bytes) Answer ρ)}
    {results : List ρ} (sound : l.Sound)
    (ran : runs ledgerPerform scripts l = some (results, l')) :
    l'.Sound ∧ l.identities <+: l'.identities :=
  runs_keep (P := fun k => k.Sound ∧ l.identities <+: k.identities) grown_kept
    ⟨sound, List.prefix_rfl⟩ ran

/-- Where the last ledger of the desk can be stored, all before it can. -/
theorem deskServe_fits (sound : l.Sound) {replies : List Reply} {stopped : Bool}
    (served : deskServe l received = some (replies, stopped, l'))
    (small : ledgerLength sgx l' ≤ 65535) :
    DeskFits sgx l received ∧ l'.Sound ∧ l.identities <+: l'.identities := by
  induction received generalizing l replies with
  | nil =>
      cases served
      exact ⟨trivial, sound, List.prefix_rfl⟩
  | cons data rest ih =>
      rw [deskServe] at served
      obtain ⟨⟨told, ended, l1⟩, here, later⟩ := Option.bind_eq_some_iff.mp served
      have heard : (receiveScript data).run ledgerPerform l = some ((told, ended), l1) := by
        rw [← receiveScript_run] at here
        obtain ⟨_, heard, same⟩ := Option.map_eq_some_iff.mp here
        cases same
        exact heard
      obtain ⟨sound1, grown1⟩ := run_grows sound heard
      cases ended with
      | true =>
          cases later
          refine ⟨fun first found => ?_, sound1, grown1⟩
          cases here.symm.trans found
          exact ⟨small, fun running => by cases running⟩
      | false =>
          obtain ⟨⟨_, _, l2⟩, behind, same⟩ := Option.map_eq_some_iff.mp later
          cases same
          obtain ⟨fits, sound2, grown2⟩ := ih sound1 behind
          refine ⟨fun first found => ?_, sound2, grown1.trans grown2⟩
          cases here.symm.trans found
          exact ⟨(ledgerLength_grows sgx grown2).trans small, fun _ => fits⟩

theorem closed_sound (l : Ledger Bytes Bytes) : Ledger.Sound ⟨l.entries, none⟩ := by
  intro i selected
  cases selected

theorem deskLives_fit {lives : List (List Received)} {replies : List (List Reply)}
    (served : deskLives l lives = some (replies, l')) (small : ledgerLength sgx l' ≤ 65535) :
    LivesFit sgx l lives ∧ l.identities <+: l'.identities := by
  induction lives generalizing l replies with
  | nil =>
      cases served
      exact ⟨trivial, List.prefix_rfl⟩
  | cons received lives ih =>
      rw [deskLives] at served
      obtain ⟨⟨told, ended, l1⟩, here, later⟩ := Option.bind_eq_some_iff.mp served
      obtain ⟨⟨_, l2⟩, behind, same⟩ := Option.map_eq_some_iff.mp later
      cases same
      obtain ⟨fits, grown⟩ := ih behind
      have small1 : ledgerLength sgx l1 ≤ 65535 := (ledgerLength_grows sgx grown).trans small
      obtain ⟨fits1, _, grown1⟩ := deskServe_fits (closed_sound l) here small1
      refine ⟨⟨fits1, fun first found => ?_⟩, grown1.trans grown⟩
      cases here.symm.trans found
      exact fits

theorem Filed.small (doc : sgx.Documented) {file : Option Bytes} (filed : Filed sgx file l) :
    ledgerLength sgx l ≤ 65535 := by
  obtain ⟨w, _, same, synced⟩ := opens_filed sgx doc (w := ⟨[], none, file, 0, []⟩) filed
  have small := synced_small sgx doc synced
  rwa [same] at small

/-- Of two runs from one ledger, the one needs no more room whose every account is untouched or
that of the other run. -/
theorem ledgerLength_left {ρ : Type} {scripts scripts' : List (Script (Op Bytes Bytes) Answer ρ)}
    {results results' : List ρ} {l1 l2 : Ledger Bytes Bytes}
    (start : l.Sound ∧ l.owners.Nodup) (ran : runs ledgerPerform scripts l = some (results, l1))
    (ran' : runs ledgerPerform scripts' l = some (results', l2))
    (from_either : ∀ name, l2.book.accounts name = l.book.accounts name ∨
      l2.book.accounts name = l1.book.accounts name) :
    ledgerLength sgx l2 ≤ ledgerLength sgx l1 := by
  obtain ⟨_, grown⟩ := runs_grow start.1 ran
  have nodup1 := (runs_keep ledger_simulates.kept start ran).2
  have nodup2 := (runs_keep ledger_simulates.kept start ran').2
  have subset := book_subset start.2 nodup1 nodup2 grown.subset from_either
  obtain ⟨part, perm, sublist⟩ := List.subperm_of_subset (identities_nodup nodup2) subset
  rw [ledgerLength, ledgerLength, ← (perm.map _).sum_eq]
  exact Nat.add_le_add_right ((sublist.map _).sum_le_sum fun _ _ => Nat.zero_le _) _

theorem alone_either {l1 l2 : Ledger Bytes Bytes} {name : Bytes} (alone : l2.book.accounts =
      Function.update l.book.accounts name (l1.book.accounts name)) (other : Bytes) :
    l2.book.accounts other = l.book.accounts other ∨
      l2.book.accounts other = l1.book.accounts other := by
  rw [alone]
  by_cases same : other = name
  · subst same
    exact .inr (Function.update_self ..)
  · exact .inl (Function.update_of_ne same ..)

variable {file final : Option Bytes} {lives lives' : List Life} {replies : List (List Reply)}
  {sent : List (List Bytes)}

theorem lives_received (lives : List Life) :
    (lives.map Life.process).map Prod.snd = lives.map Life.received := by
  rw [List.map_map]
  rfl

theorem turns_deskLives (lives : List Life) (l : Ledger Bytes Bytes) :
    runs ledgerPerform (lives.map fun life => life.turn.script) l =
      deskLives l (lives.map Life.received) := by
  rw [← lives_runs, List.map_map]
  rfl

/-- Lives that all get through are turns on the ledger. -/
theorem lives_turns (doc : sgx.Documented) (reliable : sgx.Reliable) (filed : Filed sgx file l)
    (fits : LivesFit sgx l (lives.map Life.received))
    (served : serverLives sgx (lives.map Life.process) file = .ok (sent, final)) :
    ∃ replies l', runs ledgerPerform (lives.map fun life => life.turn.script)
      ⟨l.entries, none⟩ = some (replies, l') ∧
        List.Forall₂ (List.Forall₂ Reply.Written) replies sent ∧ Filed sgx final l' := by
  -- whoever the ledger has selected is logged out when the first life begins
  have closed : Filed sgx file ⟨l.entries, none⟩ := filed
  have fits' : LivesFit sgx ⟨l.entries, none⟩ ((lives.map Life.process).map Prod.snd) := by
    rw [lives_received]
    cases lives with
    | nil => trivial
    | cons life lives => exact fits
  obtain ⟨fails, ends⟩ := lives_desk doc reliable (lives.map Life.process) closed fits'
  rw [lives_received, ← turns_deskLives] at fails ends
  cases ran : runs ledgerPerform (lives.map fun life => life.turn.script)
      ⟨l.entries, none⟩ with
  | none =>
      obtain ⟨fault, failed⟩ := fails ran
      cases served.symm.trans failed
  | some told =>
      obtain ⟨_, _, same, related, filed'⟩ := ends told.1 told.2 ran
      cases served.symm.trans same
      exact ⟨told.1, told.2, rfl, related, filed'⟩

/-- Turns on the ledger are lives that all get through, where the last file fits in a blob. -/
theorem turns_lives (doc : sgx.Documented) (reliable : sgx.Reliable) (filed : Filed sgx file l)
    (ran : runs ledgerPerform (lives.map fun life => life.turn.script) ⟨l.entries, none⟩ =
      some (replies, l')) (small : ledgerLength sgx l' ≤ 65535) :
    ∃ sent final, serverLives sgx (lives.map Life.process) file = .ok (sent, final) ∧
      List.Forall₂ (List.Forall₂ Reply.Written) replies sent ∧ Filed sgx final l' := by
  have closed : Filed sgx file ⟨l.entries, none⟩ := filed
  rw [turns_deskLives, ← lives_received] at ran
  exact (lives_desk doc reliable _ closed (deskLives_fit ran small).1).2 _ _ ran

/-- What two orders of the same lives have in common: everybody is sent the same replies, and
the last files are of the same accounts. -/
structure ServedAlike (sgx : Sgx) (lives lives' : List Life) (sent sent' : List (List Bytes))
    (file file' : Option Bytes) : Prop where
  replies : ∃ replies replies', List.Forall₂ (List.Forall₂ Reply.Written) replies sent ∧
    List.Forall₂ (List.Forall₂ Reply.Written) replies' sent' ∧
      ∀ name, toldTo Life.owner name lives' replies' = toldTo Life.owner name lives replies
  accounts : ∃ l l', Filed sgx file l ∧ Filed sgx file' l' ∧ l'.book.accounts = l.book.accounts

/-- Server processes can be reordered as long as each customer keeps the own order: where they
all get through in one order, with ledgers that can be stored, they do in every other, everybody
is sent the same replies, and the last file holds the same accounts. -/
theorem lives_any_order (doc : sgx.Documented) (reliable : sgx.Reliable)
    (filed : Filed sgx file l) (nodup : l.owners.Nodup)
    (same : ∀ name, ownedBy Life.owner name lives = ownedBy Life.owner name lives')
    (fits : LivesFit sgx l (lives.map Life.received))
    (served : serverLives sgx (lives.map Life.process) file = .ok (sent, final)) :
    ∃ sent' final', serverLives sgx (lives'.map Life.process) file = .ok (sent', final') ∧
      ServedAlike sgx lives lives' sent sent' final final' := by
  obtain ⟨replies, l1, ran, related, filed1⟩ := lives_turns doc reliable filed fits served
  have start : Ledger.Sound ⟨l.entries, none⟩ ∧ (Ledger.owners ⟨l.entries, none⟩).Nodup :=
    ⟨closed_sound l, nodup⟩
  obtain ⟨replies', l2, ran', accounts, told⟩ := turns_any_order Life.turn start same ran
  have small : ledgerLength sgx l2 ≤ 65535 :=
    (ledgerLength_left start ran ran' fun a => .inr (congrFun accounts a)).trans
      (filed1.small doc)
  obtain ⟨sent', final', served', related', filed2⟩ := turns_lives doc reliable filed ran' small
  exact ⟨sent', final', served', ⟨_, _, related, related', told⟩, l1, l2, filed1, filed2, accounts⟩

/-- Without the lives of all others a customer is sent the same replies, and has the same
account in the end. -/
theorem lives_alone (doc : sgx.Documented) (reliable : sgx.Reliable) (filed : Filed sgx file l)
    (nodup : l.owners.Nodup) (name : Bytes) (fits : LivesFit sgx l (lives.map Life.received))
    (served : serverLives sgx (lives.map Life.process) file = .ok (sent, final)) :
    ∃ sent' final', serverLives sgx ((ownedBy Life.owner name lives).map Life.process) file =
        .ok (sent', final') ∧
      ∃ replies l1 l2, List.Forall₂ (List.Forall₂ Reply.Written) replies sent ∧
        List.Forall₂ (List.Forall₂ Reply.Written) (toldTo Life.owner name lives replies) sent' ∧
          Filed sgx final l1 ∧ Filed sgx final' l2 ∧
            l2.book.accounts = Function.update l.book.accounts name (l1.book.accounts name) := by
  obtain ⟨replies, l1, ran, related, filed1⟩ := lives_turns doc reliable filed fits served
  have start : Ledger.Sound ⟨l.entries, none⟩ ∧ (Ledger.owners ⟨l.entries, none⟩).Nodup :=
    ⟨closed_sound l, nodup⟩
  obtain ⟨l2, ran', accounts⟩ := turns_alone Life.turn start name ran
  have small : ledgerLength sgx l2 ≤ 65535 :=
    (ledgerLength_left start ran ran' (alone_either accounts)).trans (filed1.small doc)
  obtain ⟨sent', final', served', related', filed2⟩ := turns_lives doc reliable filed ran' small
  exact ⟨sent', final', served', replies, l1, l2, related, related', filed1, filed2, accounts⟩

section Example

def guestField : Field := ⟨ascii "g", by decide, by decide⟩

def guestMessage : Message := ⟨.login guestField guestField, by decide⟩

theorem messages_own {owner : Bytes} {messages : List Message}
    (own : ∀ message ∈ messages, message.text.request.Own owner) :
    ∀ data ∈ messages.map (fun message => Received.data message.chunk), data.Own owner := by
  intro data member
  obtain ⟨message, listed, rfl⟩ := List.mem_map.mp member
  intro request parsed
  rw [message.requestOf] at parsed
  cases parsed
  exact own message listed

theorem shortVisit_own : ∀ message ∈ shortVisit, message.text.request.Own (ascii "a") :=
  List.forall_mem_cons.mpr ⟨rfl, List.forall_mem_cons.mpr
    ⟨trivial, List.forall_mem_singleton.mpr trivial⟩⟩

/-- The visit of one customer. -/
def ownerLife : Life := ⟨ascii "a", cleanStack, _, messages_own shortVisit_own⟩

/-- The first login of another. -/
def guestLife : Life := ⟨ascii "g", cleanStack, _, messages_own (List.forall_mem_singleton.mpr
  (show guestMessage.text.request.Own (ascii "g") from rfl))⟩

theorem guest_desk : deskServe ⟨[⟨ascii "a", ascii "p", 500⟩], none⟩
    ([guestMessage].map fun message => .data message.chunk) = some ([.loginSuccess 0], false,
      ⟨[⟨ascii "a", ascii "p", 500⟩, ⟨ascii "g", ascii "g", 0⟩], some 1⟩) := by
  simp only [List.map_cons, List.map_nil, deskServe, message_received]
  decide +kernel

theorem twoCustomers_desk : deskLives .blank ([ownerLife, guestLife].map Life.received) =
    some ([[.loginSuccess 0, .balance 500, .tooBig], [.loginSuccess 0]],
      ⟨[⟨ascii "a", ascii "p", 500⟩, ⟨ascii "g", ascii "g", 0⟩], some 1⟩) := by
  show (deskServe .blank (shortVisit.map fun message => .data message.chunk)).bind _ = _
  rw [shortVisit_desk, Option.bind_some]
  show ((deskServe ⟨[⟨ascii "a", ascii "p", 500⟩], none⟩
    ([guestMessage].map fun message => .data message.chunk)).bind _).map _ = _
  rw [guest_desk]
  rfl

theorem twoCustomers_fit :
    LivesFit clearSealing .blank ([ownerLife, guestLife].map Life.received) :=
  (deskLives_fit twoCustomers_desk (by decide +kernel)).1

theorem twoCustomers_served : ∃ sent final,
    serverLives clearSealing ([ownerLife, guestLife].map Life.process) (some []) =
      .ok (sent, final) := by
  obtain ⟨sent, final, served, _⟩ := (lives_desk clearSealing_documented clearSealing_reliable
    ([ownerLife, guestLife].map Life.process) (filed_empty clearSealing) twoCustomers_fit).2 _ _
      twoCustomers_desk
  exact ⟨sent, final, served⟩

theorem lives_any_order_two : ∃ sent final sent' final',
    serverLives clearSealing ([ownerLife, guestLife].map Life.process) (some []) =
        .ok (sent, final) ∧
      serverLives clearSealing ([guestLife, ownerLife].map Life.process) (some []) =
          .ok (sent', final') ∧
        ServedAlike clearSealing [ownerLife, guestLife] [guestLife, ownerLife] sent sent' final
          final' := by
  obtain ⟨sent, final, served⟩ := twoCustomers_served
  obtain ⟨sent', final', served', alike⟩ := lives_any_order clearSealing_documented
    clearSealing_reliable (filed_empty clearSealing) List.nodup_nil
    (fun name => ownedBy_swap (by decide) name []) twoCustomers_fit served
  exact ⟨sent, final, sent', final', served, served', alike⟩

theorem lives_alone_owner : ∃ sent final sent' final' replies,
    serverLives clearSealing ([ownerLife, guestLife].map Life.process) (some []) =
        .ok (sent, final) ∧
      serverLives clearSealing ([ownerLife].map Life.process) (some []) = .ok (sent', final') ∧
        List.Forall₂ (List.Forall₂ Reply.Written)
          (toldTo Life.owner (ascii "a") [ownerLife, guestLife] replies) sent' := by
  obtain ⟨sent, final, served⟩ := twoCustomers_served
  obtain ⟨sent', final', served', replies, _, _, _, related, _⟩ := lives_alone
    clearSealing_documented clearSealing_reliable (filed_empty clearSealing) List.nodup_nil
    (ascii "a") twoCustomers_fit served
  exact ⟨sent, final, sent', final', replies, served, served', related⟩

end Example

end Lives

section Stays

variable {w w' : World} {calls : List Ecall}

/-- Calls made in a row under one name, behind a login, a registration or a restart. -/
structure Stay where
  owner : Bytes
  calls : List Ecall
  own : ∀ call ∈ calls, call.op.Own owner
  resets : ∀ call ∈ calls.head?, call.op.Resets

def Stay.turn (stay : Stay) : Turn Bytes Bytes (List Answer) where
  owner := stay.owner
  script := asks (stay.calls.map Ecall.op)
  own := asks_all (List.forall_mem_map.mpr stay.own)
  resets := by
    cases made : stay.calls with
    | nil => trivial
    | cons call calls => exact stay.resets call (by rw [made]; rfl)

/-- One stay after the other: what the calls of each return, and the last state. -/
def stayTrace (sgx : Sgx) : List Stay → World → Except Fault (List (List Returned) × World)
  | [], w => .ok ([], w)
  | stay :: stays, w => do
      let (history, w1) ← ecallTrace sgx stay.calls w
      let (rest, w2) ← stayTrace sgx stays w1
      return (history.map (fun move => move.label.2) :: rest, w2)

/-- What the enclave goes through can all be stored. -/
def StaysFit (sgx : Sgx) : Ledger Bytes Bytes → List Stay → Prop
  | _, [] => True
  | l, stay :: stays => FitsAlong sgx l stay.calls ∧
      ∀ told ∈ ledgerPerforms l (stay.calls.map Ecall.op), StaysFit sgx told.2 stays

theorem traced_performs (doc : sgx.Documented) (reliable : sgx.Reliable) (synced : Synced sgx w)
    (separated : ∀ call ∈ calls, call.CommaFree) (fits : FitsAlong sgx w.ledger calls)
    {history : List Move} (traced : ecallTrace sgx calls w = .ok (history, w')) :
    Synced sgx w' ∧ ∃ answers,
      ledgerPerforms w.ledger (calls.map Ecall.op) = some (answers, w'.ledger) ∧
        history.map (fun move => move.label.2) = answers.map answerReturned := by
  have shown := synced_trace sgx doc reliable synced separated fits
  refine ⟨synced_traced sgx doc reliable synced separated fits traced, ?_⟩
  rw [ledgerTrace, traced] at shown
  cases performed : ledgerPerforms w.ledger (calls.map Ecall.op) with
  | none =>
      rw [performed] at shown
      cases shown
  | some told =>
      rw [performed] at shown
      obtain ⟨returned, ledger⟩ := Prod.mk.inj (Except.ok.inj shown)
      exact ⟨told.1, congrArg (fun l => some (told.1, l)) ledger.symm, returned⟩

theorem performs_traced (doc : sgx.Documented) (reliable : sgx.Reliable) (synced : Synced sgx w)
    (separated : ∀ call ∈ calls, call.CommaFree) (fits : FitsAlong sgx w.ledger calls)
    {answers : List Answer}
    (performed : ledgerPerforms w.ledger (calls.map Ecall.op) = some (answers, l')) :
    ∃ history w', ecallTrace sgx calls w = .ok (history, w') ∧ Synced sgx w' ∧ w'.ledger = l' ∧
      history.map (fun move => move.label.2) = answers.map answerReturned := by
  have shown := synced_trace sgx doc reliable synced separated fits
  rw [ledgerTrace, performed] at shown
  obtain ⟨⟨history, w'⟩, traced, same⟩ := map_ok shown
  obtain ⟨returned, ledger⟩ := Prod.mk.inj same
  exact ⟨history, w', traced, synced_traced sgx doc reliable synced separated fits traced, ledger,
    returned⟩

theorem synced_sound (synced : Synced sgx w) : w.ledger.Sound := by
  obtain ⟨⟨manager, _, wf, _, _⟩, _⟩ := synced
  exact ledger_sound wf

/-- Stays that all return are turns on the ledger. -/
theorem stays_turns (doc : sgx.Documented) (reliable : sgx.Reliable) (synced : Synced sgx w)
    {stays : List Stay} (separated : ∀ stay ∈ stays, ∀ call ∈ stay.calls, call.CommaFree)
    (fits : StaysFit sgx w.ledger stays) {returned : List (List Returned)}
    (traced : stayTrace sgx stays w = .ok (returned, w')) :
    Synced sgx w' ∧ ∃ answers, runs ledgerPerform (stays.map fun stay => stay.turn.script)
      w.ledger = some (answers, w'.ledger) ∧ returned = answers.map (·.map answerReturned) := by
  induction stays generalizing w returned with
  | nil =>
      cases traced
      exact ⟨synced, [], rfl, rfl⟩
  | cons stay stays ih =>
      obtain ⟨clean, cleanLater⟩ := List.forall_mem_cons.mp separated
      obtain ⟨here, later⟩ := fits
      rw [stayTrace] at traced
      obtain ⟨⟨history, w1⟩, first, traced⟩ := bind_ok traced
      obtain ⟨⟨rest, w2⟩, behind, same⟩ := bind_ok traced
      cases same
      obtain ⟨synced1, answers, performed, told⟩ :=
        traced_performs doc reliable synced clean here first
      obtain ⟨synced2, more, ran, rfl⟩ := ih synced1 cleanLater (later _ performed) behind
      have asked : stay.turn.script.run ledgerPerform w.ledger = some (answers, w1.ledger) :=
        (asks_performs _ _).trans performed
      exact ⟨synced2, answers :: more, runs_cons.mpr ⟨answers, _, more, asked, ran, rfl⟩,
        congrArg (· :: _) told⟩

theorem fitsAlong_last (sound : l.Sound) {answers : List Answer}
    (performed : ledgerPerforms l (calls.map Ecall.op) = some (answers, l'))
    (small : ledgerLength sgx l' ≤ 65535) :
    FitsAlong sgx l calls ∧ l.identities <+: l'.identities := by
  induction calls generalizing l answers with
  | nil =>
      cases performed
      exact ⟨trivial, List.prefix_rfl⟩
  | cons call calls ih =>
      rw [List.map_cons, ledgerPerforms_cons] at performed
      obtain ⟨first, here, later⟩ := Option.bind_eq_some_iff.mp performed
      obtain ⟨rest, behind, same⟩ := Option.map_eq_some_iff.mp later
      cases same
      obtain ⟨sound1, grown1⟩ := grown_kept ⟨sound, List.prefix_rfl⟩ here
      obtain ⟨fits, grown2⟩ := ih sound1 behind
      refine ⟨fun told found => ?_, grown1.trans grown2⟩
      cases here.symm.trans found
      exact ⟨(ledgerLength_grows sgx grown2).trans small, fits⟩

/-- Turns on the ledger are stays that all return, where the last list fits in a blob. -/
theorem turns_stays (doc : sgx.Documented) (reliable : sgx.Reliable) (synced : Synced sgx w)
    {stays : List Stay} (separated : ∀ stay ∈ stays, ∀ call ∈ stay.calls, call.CommaFree)
    {answers : List (List Answer)}
    (ran : runs ledgerPerform (stays.map fun stay => stay.turn.script) w.ledger =
      some (answers, l')) (small : ledgerLength sgx l' ≤ 65535) :
    ∃ w', stayTrace sgx stays w = .ok (answers.map (·.map answerReturned), w') ∧
      w'.ledger = l' := by
  induction stays generalizing w answers with
  | nil =>
      cases ran
      exact ⟨w, rfl, rfl⟩
  | cons stay stays ih =>
      obtain ⟨clean, cleanLater⟩ := List.forall_mem_cons.mp separated
      obtain ⟨first, l1, rest, asked, behind, rfl⟩ := runs_cons.mp ran
      have performed : ledgerPerforms w.ledger (stay.calls.map Ecall.op) = some (first, l1) :=
        (asks_performs _ _).symm.trans asked
      have sound := synced_sound synced
      obtain ⟨_, grown⟩ := runs_grow (run_grows sound asked).1 behind
      have small1 : ledgerLength sgx l1 ≤ 65535 := (ledgerLength_grows sgx grown).trans small
      obtain ⟨here, _⟩ := fitsAlong_last sound performed small1
      obtain ⟨history, w1, traced, synced1, rfl, told⟩ :=
        performs_traced doc reliable synced clean here performed
      obtain ⟨w2, onwards, same⟩ := ih synced1 cleanLater behind
      refine ⟨w2, ?_, same⟩
      rw [stayTrace, traced, ok_bind]
      show (stayTrace sgx stays w1 >>= _) = _
      rw [onwards, ok_bind, told]
      rfl

/-- Without the stays of all others, which were separated and could all be stored, the calls
of a customer return the same values, and leave the same account. -/
theorem stays_alone (doc : sgx.Documented) (reliable : sgx.Reliable) (synced : Synced sgx w)
    (nodup : w.ledger.owners.Nodup) (name : Bytes) {stays : List Stay}
    (separated : ∀ stay ∈ stays, ∀ call ∈ stay.calls, call.CommaFree)
    (fits : StaysFit sgx w.ledger stays) {returned : List (List Returned)}
    (traced : stayTrace sgx stays w = .ok (returned, w')) :
    ∃ w'', stayTrace sgx (ownedBy Stay.owner name stays) w =
        .ok (toldTo Stay.owner name stays returned, w'') ∧
      w''.ledger.book.accounts = Function.update w.ledger.book.accounts name
        (w'.ledger.book.accounts name) := by
  obtain ⟨synced', answers, ran, rfl⟩ := stays_turns doc reliable synced separated fits traced
  have start : w.ledger.Sound ∧ w.ledger.owners.Nodup := ⟨synced_sound synced, nodup⟩
  obtain ⟨l2, ran', accounts⟩ := turns_alone Stay.turn start name ran
  have small : ledgerLength sgx l2 ≤ 65535 :=
    (ledgerLength_left start ran ran' (alone_either accounts)).trans (synced_small sgx doc synced')
  have own : ∀ stay ∈ ownedBy Stay.owner name stays, ∀ call ∈ stay.calls, call.CommaFree :=
    fun stay member => separated stay (List.mem_filter.mp member).1
  obtain ⟨w'', traced', rfl⟩ := turns_stays doc reliable synced own ran' small
  rw [toldTo_map]
  exact ⟨w'', traced', accounts⟩

section Example

def guest : CString := ⟨ascii "g", guestField.nulFree⟩

def ownerStay : Stay where
  owner := ascii "a"
  calls := [ownerLogin, .myDeposit 5, .myInquiry]
  own := List.forall_mem_cons.mpr ⟨rfl, List.forall_mem_cons.mpr
    ⟨trivial, List.forall_mem_singleton.mpr trivial⟩⟩
  resets _ first := Option.some.inj first ▸ trivial

def guestStay : Stay where
  owner := ascii "g"
  calls := [.initManager, .newAccount guest guest, .myWithdraw 1]
  own := List.forall_mem_cons.mpr ⟨trivial, List.forall_mem_cons.mpr
    ⟨rfl, List.forall_mem_singleton.mpr trivial⟩⟩
  resets _ first := Option.some.inj first ▸ trivial

theorem stays_alone_owner : ∃ returned w w',
    stayTrace clearSealing [ownerStay, guestStay, ownerStay] emptyBank = .ok (returned, w) ∧
      stayTrace clearSealing [ownerStay, ownerStay] emptyBank =
        .ok (toldTo Stay.owner (ascii "a") [ownerStay, guestStay, ownerStay] returned, w') ∧
          w'.ledger.book.accounts (ascii "a") = w.ledger.book.accounts (ascii "a") := by
  have synced := (synced_opening clearSealing rfl (emptyBank_opening clearSealing)).1
  have checked : (stayTrace clearSealing [ownerStay, guestStay, ownerStay] emptyBank).map
      Prod.fst = .ok [[.result .processSuccess, .value 5, .value 5],
        [.result .processSuccess, .result .processSuccess, .value 0],
          [.result .processSuccess, .value 10, .value 10]] := by
    decide +kernel
  obtain ⟨⟨returned, w⟩, traced, _⟩ := map_ok checked
  have fits : StaysFit clearSealing emptyBank.ledger [ownerStay, guestStay, ownerStay] := by
    refine ⟨by decide +kernel, fun first found => ?_⟩
    cases (show ledgerPerforms emptyBank.ledger (ownerStay.calls.map Ecall.op) = some _ from
      rfl).symm.trans found
    refine ⟨by decide +kernel, fun second found => ?_⟩
    cases (show ledgerPerforms _ (guestStay.calls.map Ecall.op) = some _ from
      rfl).symm.trans found
    exact ⟨by decide +kernel, fun _ _ => trivial⟩
  obtain ⟨w', traced', accounts⟩ := stays_alone clearSealing_documented clearSealing_reliable
    synced (by decide) (ascii "a") (by decide) fits traced
  refine ⟨returned, w, w', traced, traced', ?_⟩
  rw [accounts, Function.update_self]

end Example

end Stays

end SeccapBank
