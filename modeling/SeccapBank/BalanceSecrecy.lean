import SeccapBank.EnclaveMachine

set_option autoImplicit false

/- What the untrusted side can learn of a balance: two runs of the same calls from states
that differ in some balances only. -/
namespace SeccapBank

open CStrings Buffers Fallible Runs Ledgers

variable (sgx : Sgx) {w w' m m' : World} {S : Nat → Prop} {calls calls' : List Ecall}

/-- The length of the account file. -/
def World.fileLength (w : World) : Option Nat := w.accountFile.map List.length

/-- A call that asks for the balance of the current account while this account is one of
these. -/
def AsksSecret (S : Nat → Prop) (move : Move) : Prop :=
  (move.label.1.IsMoney ∨ move.label.1 = .myInquiry) ∧
    ∃ i, move.pre.currentIndex = some i ∧ S i

/-- The same call, with the same result unless it asks for one of the balances, and the
same amount of storage behind it. -/
structure SeenAlike (S : Nat → Prop) (move move' : Move) : Prop where
  call : move.label.1 = move'.label.1
  returned : ¬ AsksSecret S move → move.label.2 = move'.label.2
  stored : move.post.fileLength = move'.post.fileLength

theorem FileHolds.length_eq (doc : sgx.Documented) {content : Bytes} {accountList : List Account}
    (holds : FileHolds sgx content accountList) :
    content.length = if accountList = [] then 0 else sealedLength sgx .new accountList := by
  rcases holds with ⟨rfl, rfl⟩ | ⟨nonempty, _, call, size, sealed⟩
  · rfl
  · obtain ⟨total, length⟩ := doc.seal_size _ _ _ _ _ sealed
    rw [length, total, if_neg nonempty]
    rfl

/-- The length of the file tells the names and passwords at most. -/
theorem synced_fileLength (doc : sgx.Documented) (synced : Synced sgx w) :
    w.fileLength = some (if w.ledger.identities = [] then 0 else ledgerLength sgx w.ledger) := by
  obtain ⟨⟨manager, content, _, file, holds⟩, _⟩ := synced
  have empty : w.ledger.identities = [] ↔ w.accounts = [] := by
    rw [ledger_identities, World.identities, List.map_eq_nil_iff]
  rw [World.fileLength, file, Option.map_some, holds.length_eq sgx doc, ledgerLength_eq]
  simp only [empty]

theorem alike_ledgerLength {l k : Ledger Bytes Bytes} (alike : Alike S l k) :
    ledgerLength sgx l = ledgerLength sgx k := by
  rw [ledgerLength, alike.identities, ledgerLength]

theorem asked_op {call : Ecall} (asked : call.op.IsMoney ∨ call.op = .inquire) :
    call.IsMoney ∨ call = .myInquiry := by
  cases call with
  | myDeposit amount => exact .inl trivial
  | myWithdraw amount => exact .inl trivial
  | myInquiry => exact .inr rfl
  | initManager =>
      rcases asked with money | inquiry
      · cases money
      · cases inquiry
  | newAccount name password =>
      rcases asked with money | inquiry
      · cases money
      · cases inquiry

/-- One call, made in two synced states that are alike. -/
theorem secret_step (doc : sgx.Documented) (reliable : sgx.Reliable) (synced : Synced sgx w)
    (synced' : Synced sgx m) (alike : Alike S w.ledger m.ledger) {call : Ecall}
    (separated : call.CommaFree)
    (fits : ∀ first ∈ ledgerPerform w.ledger call.op, ledgerLength sgx first.2 ≤ 65535) :
    ((call.exec sgx).run w = .error .nullPointer ∧ (call.exec sgx).run m = .error .nullPointer) ∨
      ∃ answer returned w' m', EcallStep sgx w (call, answerReturned answer) w' ∧
        ledgerPerform w.ledger call.op = some (answer, w'.ledger) ∧
          EcallStep sgx m (call, returned) m' ∧ Synced sgx w' ∧ Synced sgx m' ∧
            Alike S w'.ledger m'.ledger ∧
              SeenAlike S ⟨w, (call, answerReturned answer), w'⟩ ⟨m, (call, returned), m'⟩ := by
  cases performed : ledgerPerform w.ledger call.op with
  | none =>
      have nothing : ledgerPerform m.ledger call.op = none := by
        cases other : ledgerPerform m.ledger call.op with
        | none => rfl
        | some first =>
            obtain ⟨_, _, answered, _⟩ := alike.symm.perform other
            cases performed.symm.trans answered
      exact .inl ⟨synced_unanswered sgx synced performed, synced_unanswered sgx synced' nothing⟩
  | some first =>
      obtain ⟨answer, l⟩ := first
      obtain ⟨answer', l', answered, alike', told⟩ := alike.perform performed
      have small : ledgerLength sgx l ≤ 65535 := fits _ performed
      have small' : ledgerLength sgx l' ≤ 65535 := by rwa [← alike_ledgerLength sgx alike']
      obtain ⟨w', step, rfl, kept⟩ :=
        synced_performs sgx doc reliable synced separated performed small
      obtain ⟨m', step', rfl, kept'⟩ :=
        synced_performs sgx doc reliable synced' separated answered small'
      refine .inr ⟨_, _, w', m', step, rfl, step', kept, kept', alike', rfl, fun quiet => ?_, ?_⟩
      · have same := told fun asked i selected high => quiet ⟨asked_op asked, i, selected, high⟩
        exact congrArg answerReturned same
      · show w'.fileLength = m'.fileLength
        rw [synced_fileLength sgx doc kept, synced_fileLength sgx doc kept', alike'.identities,
          alike_ledgerLength sgx alike']

/-- Secrecy of balances: from two synced states that differ at most in the balances of
some accounts, the same separated calls, as long as the lists fit, fault alike, or return alike
but for the results of money calls and inquiries while one of these accounts is current, with
files of the same length after every call, and lead to states that again differ in these
balances at most. -/
theorem balances_secret (doc : sgx.Documented) (reliable : sgx.Reliable) (synced : Synced sgx w)
    (synced' : Synced sgx m) (alike : Alike S w.ledger m.ledger)
    (separated : ∀ call ∈ calls, call.CommaFree) (fits : FitsAlong sgx w.ledger calls) :
    (ecallTrace sgx calls w = .error .nullPointer ∧
        ecallTrace sgx calls m = .error .nullPointer) ∨
      ∃ history w' history' m', ecallTrace sgx calls w = .ok (history, w') ∧
        ecallTrace sgx calls m = .ok (history', m') ∧
          List.Forall₂ (SeenAlike S) history history' ∧ Alike S w'.ledger m'.ledger := by
  induction calls generalizing w m with
  | nil => exact .inr ⟨[], w, [], m, rfl, rfl, .nil, alike⟩
  | cons call calls ih =>
      rcases secret_step sgx doc reliable synced synced' alike
        (separated call (List.mem_cons_self ..)) (fun first performed => (fits first performed).1)
        with ⟨failed, failed'⟩ |
          ⟨answer, returned, w1, m1, step, performed, step', kept, kept', alike1, seen⟩
      · exact .inl ⟨ecallTrace_error sgx failed _, ecallTrace_error sgx failed' _⟩
      · rw [ecallTrace_step sgx step, ecallTrace_step sgx step']
        rcases ih kept kept' alike1 (fun c member => separated c (List.mem_cons_of_mem call member))
          (fits _ performed).2 with ⟨failed, failed'⟩ |
            ⟨history, w2, history', m2, traced, traced', related, alike2⟩
        · rw [failed, failed']
          exact .inl ⟨rfl, rfl⟩
        · rw [traced, traced']
          exact .inr ⟨_, _, _, _, rfl, rfl, .cons seen related, alike2⟩

/-- One account with this balance, and its owner logged in. -/
def depositedCalls (amount : UInt64) : List Ecall := [ownerLogin, .myDeposit amount]

/-- The owner asks for the balance, and another customer registers and deposits. -/
def askingCalls : List Ecall :=
  [.myInquiry, .newAccount ⟨ascii "n", by decide⟩ ⟨ascii "s", by decide⟩, .myDeposit 3]

theorem balances_secret_session : ∃ w m history w' history' m', w.balanceAt 0 = 5 ∧
    m.balanceAt 0 = 7 ∧ ecallTrace clearSealing askingCalls w = .ok (history, w') ∧
      ecallTrace clearSealing askingCalls m = .ok (history', m') ∧
        List.Forall₂ (SeenAlike (· = 0)) history history' := by
  have separated (amount : UInt64) : ∀ call ∈ depositedCalls amount, call.CommaFree :=
    List.forall_mem_cons.mpr ⟨by decide, List.forall_mem_singleton.mpr
      (show (Ecall.myDeposit amount).CommaFree from trivial)⟩
  have reached (amount : UInt64) (balance : Nat)
      (checked : (ecallTrace clearSealing (depositedCalls amount) emptyBank).map (fun t =>
        (t.2.identities, t.2.currentIndex, t.2.balanceAt 0,
          decide (FitsAlong clearSealing t.2.ledger askingCalls),
          (ecallTrace clearSealing askingCalls t.2).toOption.isSome)) =
          .ok ([(ascii "a", ascii "p")], some 0, balance, true, true))
      (fits : FitsAlong clearSealing emptyBank.ledger (depositedCalls amount)) :
      ∃ w, Synced clearSealing w ∧ w.ledger.identities = [(ascii "a", ascii "p")] ∧
        w.ledger.selected = some 0 ∧ w.balanceAt 0 = balance ∧
          FitsAlong clearSealing w.ledger askingCalls ∧
            (ecallTrace clearSealing askingCalls w).toOption.isSome = true := by
    obtain ⟨⟨history, w⟩, traced, same⟩ := map_ok checked
    simp only [Prod.mk.injEq, decide_eq_true_eq] at same
    obtain ⟨identities, current, balance, asking, returns⟩ := same
    have synced := synced_traced clearSealing clearSealing_documented clearSealing_reliable
      (synced_opening clearSealing rfl (emptyBank_opening clearSealing)).1
      (separated amount) fits traced
    exact ⟨w, synced, (ledger_identities w).trans identities, current, balance, asking, returns⟩
  obtain ⟨w, synced, names, current, five, fits, returns⟩ := reached 5 5
    (by decide +kernel) (by decide +kernel)
  obtain ⟨m, synced', names', current', seven, _⟩ := reached 7 7
    (by decide +kernel) (by decide +kernel)
  have alike : Alike (· = 0) w.ledger m.ledger := by
    refine ⟨names.trans names'.symm, current.trans current'.symm, fun i other => ?_⟩
    have beyond {l : Ledger Bytes Bytes} (one : l.identities = [(ascii "a", ascii "p")]) :
        l.balanceAt i = 0 := by
      have length : l.entries.length = 1 := by rw [← identities_length, one, List.length_singleton]
      rw [Ledger.balanceAt, List.getElem?_eq_none (by omega)]
      rfl
    rw [beyond names, beyond names']
  rcases balances_secret clearSealing clearSealing_documented clearSealing_reliable synced synced'
    alike (by decide) fits with ⟨failed, _⟩ | ⟨history, w', history', m', traced, traced', seen, _⟩
  · rw [failed] at returns
    cases returns
  · exact ⟨w, m, history, w', history', m', five, seven, traced, traced', seen⟩

end SeccapBank
