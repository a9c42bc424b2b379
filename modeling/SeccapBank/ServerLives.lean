import SeccapBank.FrontDesk

set_option autoImplicit false

/- Server processes one after the other on one account file: each is started on what the one
before has left there, and ends between two requests. -/
namespace SeccapBank

open CStrings Buffers Fallible Decimals Runs Ledgers

variable {sgx : Sgx} {lives : List (List Received)} {l l' : Ledger Bytes Bytes}
  {file : Option Bytes}

/-- A new process, whose enclave is empty. -/
def Server.start (file : Option Bytes) : Server := ⟨⟨[], none, file, 0, []⟩, [], [], []⟩

/-- What every life of the server has sent, and the file that the last one leaves. The stack
of a process is its own. -/
def serverLives (sgx : Sgx) : List (Stack × List Received) → Option Bytes →
    Except Fault (List (List Bytes) × Option Bytes)
  | [], file => .ok ([], file)
  | (stack, received) :: lives, file => do
      let (_, s) ← (serverMain sgx stack received).run (.start file)
      let (sent, final) ← serverLives sgx lives s.bank.accountFile
      return (s.sent :: sent, final)

/-- One desk, at which everybody is logged out between two lives. -/
def deskLives : Ledger Bytes Bytes → List (List Received) →
    Option (List (List Reply) × Ledger Bytes Bytes)
  | l, [] => some ([], l)
  | l, received :: lives => (deskServe ⟨l.entries, none⟩ received).bind fun first =>
      (deskLives first.2.2 lives).map fun rest => (first.1 :: rest.1, rest.2)

/-- What the desk goes through can all be stored. -/
def LivesFit (sgx : Sgx) : Ledger Bytes Bytes → List (List Received) → Prop
  | _, [] => True
  | l, received :: lives => DeskFits sgx ⟨l.entries, none⟩ received ∧
      ∀ first ∈ deskServe ⟨l.entries, none⟩ received, LivesFit sgx first.2.2 lives

theorem start_run (doc : sgx.Documented) (reliable : sgx.Reliable) (filed : Filed sgx file l)
    (stack : Stack) {received : List Received} (fits : DeskFits sgx ⟨l.entries, none⟩ received)
    {replies : List Reply} {stopped : Bool}
    (desk : deskServe ⟨l.entries, none⟩ received = some (replies, stopped, l')) :
    ∃ s, (serverMain sgx stack received).run (.start file) = .ok (stopped, s) ∧
      Filed sgx s.bank.accountFile l' ∧ List.Forall₂ Reply.Written replies s.sent := by
  obtain ⟨s, ran, rfl, synced, written, related, sent⟩ :=
    (main_desk stack (s := .start file) doc reliable filed fits).2 _ _ _ desk
  have all : s.sent = written := sent
  exact ⟨s, ran, synced.filed, all ▸ related⟩

theorem lives_desk (doc : sgx.Documented) (reliable : sgx.Reliable)
    (lives : List (Stack × List Received)) (filed : Filed sgx file l)
    (fits : LivesFit sgx l (lives.map Prod.snd)) :
    (deskLives l (lives.map Prod.snd) = none →
        ∃ fault, serverLives sgx lives file = .error fault) ∧
      ∀ replies l', deskLives l (lives.map Prod.snd) = some (replies, l') →
        ∃ sent final, serverLives sgx lives file = .ok (sent, final) ∧
          List.Forall₂ (List.Forall₂ Reply.Written) replies sent ∧ Filed sgx final l' := by
  induction lives generalizing file l with
  | nil =>
      refine ⟨fun nothing => (by cases nothing), fun replies l' desk => ?_⟩
      cases desk
      exact ⟨[], file, rfl, .nil, filed⟩
  | cons life lives ih =>
      obtain ⟨stack, received⟩ := life
      obtain ⟨small, later⟩ := fits
      rw [List.map_cons, deskLives]
      cases served : deskServe ⟨l.entries, none⟩ received with
      | none =>
          refine ⟨fun _ => ?_, fun replies l' desk => (by cases desk)⟩
          obtain ⟨fault, failed⟩ :=
            (main_desk stack (s := .start file) doc reliable filed small).1 served
          refine ⟨fault, ?_⟩
          rw [serverLives, failed]
          rfl
      | some first =>
          obtain ⟨replies, stopped, l1⟩ := first
          obtain ⟨s, ran, filed1, related⟩ := start_run doc reliable filed stack small served
          obtain ⟨fails, ends⟩ := ih filed1 (later _ served)
          rw [Option.bind_some, serverLives, ran]
          refine ⟨fun nothing => ?_, fun replies' l' desk => ?_⟩
          · obtain ⟨fault, failed⟩ := fails (Option.map_eq_none_iff.mp nothing)
            refine ⟨fault, ?_⟩
            show (serverLives sgx lives s.bank.accountFile >>= _) = _
            rw [failed]
            rfl
          · obtain ⟨⟨behind, l2⟩, desk2, same⟩ := Option.map_eq_some_iff.mp desk
            cases same
            obtain ⟨sent, final, rest, related', filed2⟩ := ends _ _ desk2
            refine ⟨s.sent :: sent, final, ?_, .cons related related', filed2⟩
            show (serverLives sgx lives s.bank.accountFile >>= _) = _
            rw [rest]
            rfl

/-- The lives of the server are one desk: from an empty file, while the desk's ledgers can be
stored, they all get through what they receive exactly if the desk does, and then every life
has written the desk's replies of its time, and the last file holds the desk's accounts. -/
theorem lives_are_desk (doc : sgx.Documented) (reliable : sgx.Reliable)
    (lives : List (Stack × List Received)) (fits : LivesFit sgx .blank (lives.map Prod.snd)) :
    (deskLives .blank (lives.map Prod.snd) = none →
        ∃ fault, serverLives sgx lives (some []) = .error fault) ∧
      ∀ replies l, deskLives .blank (lives.map Prod.snd) = some (replies, l) →
        ∃ sent final, serverLives sgx lives (some []) = .ok (sent, final) ∧
          List.Forall₂ (List.Forall₂ Reply.Written) replies sent ∧ Filed sgx final l :=
  lives_desk doc reliable lives (filed_empty sgx) fits

section Example

/-- A visit, and behind a restart the same customer again. -/
def twoLives : List (Stack × List Received) :=
  [(cleanStack, shortVisit.map fun message => .data message.chunk),
    (cleanStack, [loginMessage].map fun message => .data message.chunk)]

theorem return_desk : deskServe ⟨[⟨ascii "a", ascii "p", 500⟩], none⟩
    ([loginMessage].map fun message => .data message.chunk) =
      some ([.loginSuccess 500], false, ⟨[⟨ascii "a", ascii "p", 500⟩], some 0⟩) := by
  simp only [List.map_cons, List.map_nil, deskServe, message_received]
  decide +kernel

theorem twoLives_fit : LivesFit clearSealing .blank (twoLives.map Prod.snd) := by
  refine ⟨(messages_desk shortVisit blank_sound (by decide) (by decide +kernel)).1, ?_⟩
  intro first served
  cases shortVisit_desk.symm.trans served
  have sound : Ledger.Sound ⟨[⟨ascii "a", ascii "p", 500⟩], none⟩ := by
    intro i selected
    cases selected
  exact ⟨(messages_desk [loginMessage] sound (by decide) (by decide +kernel)).1,
    fun _ _ => trivial⟩

theorem lives_are_desk_return : ∃ sent final,
    serverLives clearSealing twoLives (some []) = .ok (sent, final) ∧
      List.Forall₂ (List.Forall₂ Reply.Written)
        [[.loginSuccess 0, .balance 500, .tooBig], [.loginSuccess 500]] sent ∧
        Filed clearSealing final ⟨[⟨ascii "a", ascii "p", 500⟩], some 0⟩ := by
  have desk : deskLives .blank (twoLives.map Prod.snd) =
      some ([[.loginSuccess 0, .balance 500, .tooBig], [.loginSuccess 500]],
        ⟨[⟨ascii "a", ascii "p", 500⟩], some 0⟩) := by
    show (deskServe .blank (shortVisit.map fun message => .data message.chunk)).bind _ = _
    rw [shortVisit_desk, Option.bind_some]
    show ((deskServe ⟨[⟨ascii "a", ascii "p", 500⟩], none⟩ _).bind _).map _ = _
    rw [return_desk]
    rfl
  exact (lives_are_desk clearSealing_documented clearSealing_reliable twoLives twoLives_fit).2
    _ _ desk

end Example

end SeccapBank
