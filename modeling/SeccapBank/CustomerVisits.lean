import SeccapBank.CustomerOrder
import SeccapBank.CustomerView

set_option autoImplicit false

/- Many visits on one account file, each with a new client and a new server: what a customer
sees on the screen, whoever else has been there. -/
namespace SeccapBank

open CStrings Buffers Fallible Decimals Runs Ledgers Scripts Keyed

variable {sgx : Sgx} {l l' : Ledger Bytes Bytes} {ops : List Operation} {name : Bytes}

/-- What the desk asks of the ledger in a visit, and the screen at the end. -/
def visitScript : Bytes → Screen → List Operation → Script (Op Bytes Bytes) Answer Screen
  | _, screen, [] => .done (some screen)
  | sendInfo, screen, op :: ops =>
      if Sendable sendInfo op then
        (replyScript op.delivered).bind fun reply =>
          if reply.Fits then visitScript (printed sendInfo op) (screen.shows op reply) ops
          else .done none
      else .done none

theorem visitScript_own (own : ∀ op ∈ ops, op.delivered.Own name) (sendInfo : Bytes)
    (screen : Screen) : (visitScript sendInfo screen ops).All (Op.Own name) := by
  induction ops generalizing sendInfo screen with
  | nil => trivial
  | cons op ops ih =>
      obtain ⟨here, later⟩ := List.forall_mem_cons.mp own
      rw [visitScript]
      split
      · refine (replyScript_own here).bind fun reply => ?_
        split
        · exact ih later ..
        · trivial
      · trivial

/-- A customer: what the two processes find in their buffers, and what is entered, which logs
in under no other name. -/
structure Customer where
  name : Bytes
  stack : Stack
  sendInfo : Bytes
  receiveData : Bytes
  ops : List Operation
  sized : sendInfo.length = transferSize
  own : ∀ op ∈ ops, op.delivered.Own name

def Customer.client (customer : Customer) : Client :=
  freshClient customer.sendInfo customer.receiveData

/-- The customer in front of the desk, at which nobody is logged in. -/
def Customer.arrives (customer : Customer) (l : Ledger Bytes Bytes) : Visit :=
  ⟨customer.sendInfo, ⟨false, 0, []⟩, ⟨l.entries, none⟩⟩

def Customer.turn (customer : Customer) : Turn Bytes Bytes Screen where
  owner := customer.name
  script := .ask .reopen fun _ => visitScript customer.sendInfo ⟨false, 0, []⟩ customer.ops
  own := ⟨trivial, fun _ => visitScript_own customer.own ..⟩
  resets := trivial

variable {customer : Customer} {customers : List Customer} {file file' : Option Bytes}
  {screen : Screen} {screens : List Screen}

section Example

end Example

end SeccapBank
