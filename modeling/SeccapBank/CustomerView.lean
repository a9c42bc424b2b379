import SeccapBank.Conversation
import SeccapBank.FrontDesk
import SeccapBank.InterruptedStore

set_option autoImplicit false

/- What a customer sees: both processes together against one partial function of what the
customer enters, which knows no buffer, no segment and no sealed file. -/
namespace SeccapBank

open CStrings Buffers Fallible Decimals Runs Ledgers

/-- What the client keeps and has printed. -/
structure Screen where
  login : Bool
  preAmount : UInt64
  console : List String
  deriving DecidableEq

/-- One pass of the client's loop around a reply. -/
def Screen.shows (screen : Screen) (op : Operation) (reply : Reply) : Screen where
  login := reply.loginAfter (op.loginAfter screen.login)
  preAmount := reply.preAmount screen.preAmount
  console := screen.console ++ [promptLine, menuLine screen.login, op.question] ++
    reply.lines screen.preAmount

/-- A customer at the desk: the screen, the ledger, and the client's buffer, whose old
commas count with those of the next request. -/
structure Visit where
  sendInfo : Bytes
  screen : Screen
  ledger : Ledger Bytes Bytes
  deriving DecidableEq

/-- The words fit and have no commas, and the server finds at most three commas. -/
def Sendable (sendInfo : Bytes) (op : Operation) : Prop :=
  op.Readable ∧ op.Separated ∧
    op.text.count comma + (sendInfo.drop (op.text.length + 1)).count comma ≤ 3

instance decidableReadable : (op : Operation) → Decidable op.Readable
  | .login _ _ => inferInstanceAs (Decidable (_ ∧ _))
  | .deposit _ => inferInstanceAs (Decidable True)
  | .withdraw _ => inferInstanceAs (Decidable True)

instance decidableSeparated : (op : Operation) → Decidable op.Separated
  | .login _ _ => inferInstanceAs (Decidable (_ ∧ _))
  | .deposit _ => inferInstanceAs (Decidable True)
  | .withdraw _ => inferInstanceAs (Decidable True)

instance decidableSendable (sendInfo : Bytes) (op : Operation) : Decidable (Sendable sendInfo op) :=
  inferInstanceAs (Decidable (_ ∧ _ ∧ _))

/-- One operation of the customer, where it can be sent, is answered, and the reply fits. -/
def deskVisit (visit : Visit) (op : Operation) : Option Visit :=
  if Sendable visit.sendInfo op then
    (deskReply visit.ledger op.delivered).bind fun answered =>
      if answered.1.Fits then
        some ⟨printed visit.sendInfo op, visit.screen.shows op answered.1, answered.2⟩
      else none
  else none

def Conversation.visit (p : Conversation) : Visit :=
  ⟨p.client.sendInfo, ⟨p.client.login, p.client.preAmount, p.client.console⟩, p.server.bank.ledger⟩

variable {sgx : Sgx} {stack : Stack} {p p' start : Conversation} {op : Operation}
  {ops : List Operation} {history : List (Transition Conversation Operation)}

/-- What the desk goes through in a visit can all be stored. -/
def VisitFits (sgx : Sgx) (visit : Visit) (ops : List Operation) : Prop :=
  ∀ front ∈ ops.inits, ∀ visit' ∈ front.foldlM deskVisit visit,
    ledgerLength sgx visit'.ledger ≤ 65535

instance (sgx : Sgx) (visit : Visit) (ops : List Operation) : Decidable (VisitFits sgx visit ops) :=
  inferInstanceAs (Decidable (∀ front ∈ ops.inits, ∀ visit' ∈ _, _))

theorem VisitFits.whole {visit visit' : Visit} (fits : VisitFits sgx visit ops)
    (followed : ops.foldlM deskVisit visit = some visit') :
    ledgerLength sgx visit'.ledger ≤ 65535 :=
  fits ops ((List.mem_inits ..).mpr List.prefix_rfl) visit' followed

theorem VisitFits.front {visit : Visit} {first later : List Operation}
    (fits : VisitFits sgx visit (first ++ later)) : VisitFits sgx visit first := by
  intro front within
  have inside := ((List.mem_inits ..).mp within).trans (List.prefix_append first later)
  exact fits front ((List.mem_inits ..).mpr inside)

/-- What is kept on both sides to go on. -/
structure Conversation.Kept (sgx : Sgx) (p : Conversation) : Prop where
  sized : p.client.sendInfo.length = transferSize
  synced : Synced sgx p.server.bank

theorem Conversation.Kept.ready (kept : p.Kept sgx) : p.Ready := by
  obtain ⟨⟨manager, content, wf, file, _⟩, _⟩ := kept.synced
  exact ⟨kept.sized, ⟨manager, wf⟩, by simp [file]⟩

section Owner

/-- The words that an operation enters. -/
def Operation.words : Operation → Option (Word × Word)
  | .login name password => some (name, password)
  | .deposit _ => none
  | .withdraw _ => none

/-- Whoever is served at the desk has this name, and accepts this password. -/
def OwnerServed (l : Ledger Bytes Bytes) (words : Word × Word) : Prop :=
  ∃ i e, l.selected = some i ∧ l.entries[i]? = some e ∧ e.owner = words.1.bytes ∧
    passwordAccepts e.secret words.2.bytes

variable {l l' : Ledger Bytes Bytes}

theorem OwnerServed.settle {words : Word × Word} (served : OwnerServed l words)
    (dealt : Nat → Nat) : OwnerServed (l.settle dealt).2 words := by
  obtain ⟨i, e, selected, known, named, accepted⟩ := served
  rw [Ledger.settle, selected]
  refine ⟨i, { e with balance := dealt (l.balanceAt i) }, selected, ?_, named, accepted⟩
  rw [update_getElem?, known, Option.map_some, if_pos rfl]

end Owner

section Example

end Example

end SeccapBank
