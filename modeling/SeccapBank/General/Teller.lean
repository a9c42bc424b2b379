import SeccapBank.General.Ledger

set_option autoImplicit false

/- The ledger as a machine: the one answer and the one next state of every operation,
where the steps above leave open what a refusal selects. -/
namespace Ledgers

open Runs

deriving instance DecidableEq for Entry, Ledger

variable {α β : Type}

/-- Whoever is selected is an entry. -/
def Ledger.Sound (l : Ledger α β) : Prop := ∀ i, l.selected = some i → i < l.entries.length

/-- The ledger of a new book. -/
def Ledger.blank : Ledger α β := ⟨[], none⟩

/-- The ledger with another balance at one place, the same one where there is no entry. -/
def Ledger.update (l : Ledger α β) (i balance : Nat) : Ledger α β :=
  { l with entries := l.entries.modify i fun e => { e with balance } }

def Ledger.secretAt (l : Ledger α β) (i : Nat) : Option β := (l.entries[i]?).map Entry.secret

/-- Money moves on the selected entry, and its new balance is the answer. -/
def Ledger.settle (l : Ledger α β) (dealt : Nat → Nat) : Answer × Ledger α β :=
  match l.selected with
  | some i => (.balance (dealt (l.balanceAt i)), l.update i (dealt (l.balanceAt i)))
  | none => (.nobody, l)

/-- A deposit that exceeds the capacity changes nothing. -/
def afterDeposit (capacity amount balance : Nat) : Nat :=
  if balance + amount ≤ capacity then balance + amount else balance

/-- A withdrawal that is not covered changes nothing. -/
def afterWithdraw (amount balance : Nat) : Nat :=
  if amount ≤ balance then balance - amount else balance

section Machine

variable [DecidableEq α] (accepts : β → β → Prop) [DecidableRel accepts] (capacity : Nat)

/-- The first entry of an owner. -/
def Ledger.placeOf (l : Ledger α β) (owner : α) : Option Nat :=
  l.entries.findIdx? fun e => e.owner = owner

/-- A refused owner is selected all the same, and nobody's balance cannot be asked for. -/
def perform (l : Ledger α β) : Op α β → Option (Answer × Ledger α β)
  | .enter owner secret =>
      match l.placeOf owner with
      | some i =>
          some (if ∃ stored ∈ l.secretAt i, accepts stored secret then .granted else .refused,
            ⟨l.entries, some i⟩)
      | none => some (.granted, ⟨l.entries ++ [⟨owner, secret, 0⟩], some l.entries.length⟩)
  | .deposit amount => some (l.settle (afterDeposit capacity amount))
  | .withdraw amount => some (l.settle (afterWithdraw amount))
  | .inquire => l.selected.map fun i => (.balance (l.balanceAt i), l)
  | .reopen => some (.granted, ⟨l.entries, none⟩)

/-- The answers to a list of operations, as long as each of them has one. -/
def performs (l : Ledger α β) : List (Op α β) → Option (List Answer × Ledger α β)
  | [] => some ([], l)
  | op :: ops =>
      (perform accepts capacity l op).bind fun first =>
        (performs first.2 ops).map fun rest => (first.1 :: rest.1, rest.2)

end Machine

section Update

variable (l : Ledger α β) (i balance : Nat)

theorem update_getElem? (j : Nat) : (l.update i balance).entries[j]? =
    (l.entries[j]?).map fun e => if i = j then { e with balance } else e := by
  rw [Ledger.update, List.getElem?_modify]
  rfl

@[simp] theorem update_length : (l.update i balance).entries.length = l.entries.length :=
  List.length_modify ..

@[simp] theorem update_selected : (l.update i balance).selected = l.selected := rfl

@[simp] theorem update_identities : (l.update i balance).identities = l.identities := by
  apply List.ext_getElem?
  intro j
  simp only [Ledger.identities, List.getElem?_map, update_getElem?, Option.map_map]
  congr 1
  funext e
  simp only [Function.comp_apply]
  split <;> rfl

theorem update_balanceAt_other {j : Nat} (other : i ≠ j) :
    (l.update i balance).balanceAt j = l.balanceAt j := by
  simp [Ledger.balanceAt, update_getElem?, other]

theorem update_balanceAt_same (inside : i < l.entries.length) :
    (l.update i balance).balanceAt i = balance := by
  have known : (l.update i balance).entries[i]? = some { l.entries[i] with balance } := by
    rw [update_getElem?, List.getElem?_eq_getElem inside, Option.map_some, if_pos rfl]
  exact balanceAt_known known

end Update

theorem update_write {l : Ledger α β} {i : Nat} {e : Entry α β} (known : l.entries[i]? = some e)
    (balance : Nat) : l.update i balance = l.write i e balance := by
  have same : l.entries.modify i (fun e => { e with balance }) =
      l.entries.set i { e with balance } := by
    apply List.ext_getElem?
    intro j
    rw [List.getElem?_modify]
    by_cases here : i = j
    · subst here
      rw [List.getElem?_set_self (List.getElem?_eq_some_iff.mp known).1, known]
      simp
    · rw [List.getElem?_set_ne here]
      simp [here]
  rw [Ledger.update, Ledger.write, same]

theorem write_balance {l : Ledger α β} {i : Nat} {e : Entry α β} (known : l.entries[i]? = some e) :
    l.write i e e.balance = l := by
  obtain ⟨inside, found⟩ := List.getElem?_eq_some_iff.mp known
  have same : l.entries.set i e = l.entries := by rw [← found, List.set_getElem_self]
  simp only [Ledger.write, same]

section Sound

variable {l l' : Ledger α β} {answer : Answer}

theorem blank_sound : (Ledger.blank : Ledger α β).Sound := by
  intro i selected
  cases selected

theorem settle_cases (sound : l.Sound) (dealt : Nat → Nat) :
    (l.selected = none ∧ l.settle dealt = (.nobody, l)) ∨
      ∃ i e, l.selected = some i ∧ l.entries[i]? = some e ∧
        l.settle dealt = (.balance (dealt e.balance), l.write i e (dealt e.balance)) := by
  cases selected : l.selected with
  | none => exact .inl ⟨rfl, by rw [Ledger.settle, selected]⟩
  | some i =>
      have known := List.getElem?_eq_getElem (sound i selected)
      refine .inr ⟨i, _, rfl, known, ?_⟩
      rw [Ledger.settle, selected]
      simp only [balanceAt_known known, update_write known]

variable [DecidableEq α] {accepts : β → β → Prop} [DecidableRel accepts] {capacity : Nat}

/-- Every answer of the machine is that of one step, and the next state is sound. -/
theorem perform_step (sound : l.Sound) {op : Op α β}
    (performed : perform accepts capacity l op = some (answer, l')) :
    Step accepts capacity l (op, answer) l' ∧ l'.Sound := by
  have settled {dealt : Nat → Nat} (same : l.settle dealt = (answer, l')) : l'.Sound := by
    rcases settle_cases sound dealt with ⟨_, here⟩ | ⟨i, e, _, _, here⟩
    · cases here.symm.trans same
      exact sound
    · cases here.symm.trans same
      intro j selected
      simpa [Ledger.write] using sound j selected
  cases op with
  | enter owner secret =>
      rw [perform] at performed
      cases place : l.placeOf owner with
      | none =>
          rw [place] at performed
          cases performed
          refine ⟨.opened fun e member => ?_, fun i selected => ?_⟩
          · simpa using List.findIdx?_eq_none_iff.mp place e member
          · cases selected
            simp
      | some i =>
          rw [place] at performed
          cases performed
          obtain ⟨inside, named, _⟩ := List.findIdx?_eq_some_iff_getElem.mp place
          have known := List.getElem?_eq_getElem inside
          obtain rfl : l.entries[i].owner = owner := of_decide_eq_true named
          refine ⟨?_, fun j selected => ?_⟩
          · simp only [Ledger.secretAt, known, Option.map_some, Option.mem_some_iff,
              exists_eq_left']
            split
            · rename_i accepted
              exact .admitted known accepted
            · rename_i wrong
              exact .refused known wrong
          · cases selected
            exact inside
  | deposit amount =>
      have same : l.settle (afterDeposit capacity amount) = (answer, l') :=
        Option.some.inj performed
      refine ⟨?_, settled same⟩
      rcases settle_cases sound (afterDeposit capacity amount) with
        ⟨nobody, here⟩ | ⟨i, e, selected, known, here⟩
      · cases here.symm.trans same
        exact .undeposited nobody
      · cases here.symm.trans same
        unfold afterDeposit
        split
        · rename_i fits
          exact .deposited selected known fits
        · rename_i full
          rw [write_balance known]
          exact .overflowing selected known (Nat.lt_of_not_le full)
  | withdraw amount =>
      have same : l.settle (afterWithdraw amount) = (answer, l') := Option.some.inj performed
      refine ⟨?_, settled same⟩
      rcases settle_cases sound (afterWithdraw amount) with
        ⟨nobody, here⟩ | ⟨i, e, selected, known, here⟩
      · cases here.symm.trans same
        exact .unwithdrawn nobody
      · cases here.symm.trans same
        unfold afterWithdraw
        split
        · rename_i covered
          exact .withdrawn selected known covered
        · rename_i short
          rw [write_balance known]
          exact .overdrawn selected known (Nat.lt_of_not_le short)
  | inquire =>
      obtain ⟨i, selected, same⟩ := Option.map_eq_some_iff.mp performed
      cases same
      have known := List.getElem?_eq_getElem (sound i selected)
      rw [balanceAt_known known]
      exact ⟨.inquired selected known, sound⟩
  | reopen =>
      cases performed
      refine ⟨.reopened, fun i selected => ?_⟩
      cases selected

theorem perform_enter (l : Ledger α β) (owner : α) (secret : β) :
    ∃ answer l' i, perform accepts capacity l (.enter owner secret) = some (answer, l') ∧
      l'.selected = some i ∧ (answer = .granted ∨ answer = .refused) := by
  rw [perform]
  cases l.placeOf owner with
  | none => exact ⟨_, _, _, rfl, rfl, .inl rfl⟩
  | some i =>
      refine ⟨_, _, i, rfl, rfl, ?_⟩
      split
      · exact .inl rfl
      · exact .inr rfl

theorem Step.performed {op : Op α β} (other : ∀ owner secret, op ≠ .enter owner secret)
    (step : Step accepts capacity l (op, answer) l') :
    perform accepts capacity l op = some (answer, l') := by
  have settled {i : Nat} {e : Entry α β} (selected : l.selected = some i)
      (known : l.entries[i]? = some e) (dealt : Nat → Nat) :
      l.settle dealt = (.balance (dealt e.balance), l.write i e (dealt e.balance)) := by
    rw [Ledger.settle, selected]
    simp only [balanceAt_known known, update_write known]
  have nobody (selected : l.selected = none) (dealt : Nat → Nat) :
      l.settle dealt = (.nobody, l) := by
    rw [Ledger.settle, selected]
  cases step with
  | opened => exact absurd rfl (other _ _)
  | admitted => exact absurd rfl (other _ _)
  | refused => exact absurd rfl (other _ _)
  | deposited selected known fits =>
      rw [perform, settled selected known, afterDeposit, if_pos fits]
  | overflowing selected known full =>
      rw [perform, settled selected known, afterDeposit, if_neg (Nat.not_le.mpr full),
        write_balance known]
  | withdrawn selected known covered =>
      rw [perform, settled selected known, afterWithdraw, if_pos covered]
  | overdrawn selected known short =>
      rw [perform, settled selected known, afterWithdraw, if_neg (Nat.not_le.mpr short),
        write_balance known]
  | inquired selected known =>
      rw [perform, selected, Option.map_some, balanceAt_known known]
  | undeposited selected => rw [perform, nobody selected]
  | unwithdrawn selected => rw [perform, nobody selected]
  | reopened => rfl

/-- A list of operations that all have an answer is a run of steps. -/
theorem performs_run (sound : l.Sound) {ops : List (Op α β)} {answers : List Answer}
    (performed : performs accepts capacity l ops = some (answers, l')) :
    l'.Sound ∧ ∃ history, Run (Step accepts capacity) l history l' ∧
      history.map (·.label.1) = ops ∧ history.map (·.label.2) = answers := by
  induction ops generalizing l answers with
  | nil =>
      cases performed
      exact ⟨sound, [], .nil, rfl, rfl⟩
  | cons op ops ih =>
      obtain ⟨first, here, rest⟩ := Option.bind_eq_some_iff.mp performed
      obtain ⟨behind, later, same⟩ := Option.map_eq_some_iff.mp rest
      cases same
      obtain ⟨step, sound'⟩ := perform_step sound here
      obtain ⟨final, history, run, made, answered⟩ := ih sound' later
      have start : Run (Step accepts capacity) l [⟨l, (op, first.1), first.2⟩] first.2 :=
        Run.nil.snoc step
      exact ⟨final, _, start.append run, congrArg (op :: ·) made, congrArg (first.1 :: ·) answered⟩

theorem performs_append (l : Ledger α β) (front back : List (Op α β)) :
    performs accepts capacity l (front ++ back) =
      (performs accepts capacity l front).bind fun first =>
        (performs accepts capacity first.2 back).map fun rest => (first.1 ++ rest.1, rest.2) := by
  induction front generalizing l with
  | nil => simp [performs]
  | cons op front ih =>
      simp only [List.cons_append, performs, ih, Option.map_bind, Option.bind_assoc,
        Option.bind_map]
      congr 1
      funext first
      cases performs accepts capacity first.2 front with
      | none => rfl
      | some middle =>
          simp only [Option.bind_some, Function.comp_apply, Option.map_map]
          rfl

end Sound

section Alike

variable {S : Nat → Prop} {l m l' : Ledger α β} {answer : Answer}

/-- Equal but for the balances at some places. -/
structure Alike (S : Nat → Prop) (l m : Ledger α β) : Prop where
  identities : l.identities = m.identities
  selected : l.selected = m.selected
  balances : ∀ i, ¬ S i → l.balanceAt i = m.balanceAt i

theorem Alike.symm (alike : Alike S l m) : Alike S m l where
  identities := alike.identities.symm
  selected := alike.selected.symm
  balances i low := (alike.balances i low).symm

theorem identities_length (l : Ledger α β) : l.identities.length = l.entries.length :=
  List.length_map _

theorem identities_nodup (nodup : l.owners.Nodup) : l.identities.Nodup := by
  apply List.Nodup.of_map Prod.fst
  rwa [Ledger.identities, List.map_map]

theorem Alike.length (alike : Alike S l m) : l.entries.length = m.entries.length := by
  rw [← identities_length, alike.identities, identities_length]

theorem Alike.secretAt (alike : Alike S l m) (i : Nat) : l.secretAt i = m.secretAt i := by
  have secret (k : Ledger α β) : k.secretAt i = (k.identities[i]?).map Prod.snd := by
    rw [Ledger.secretAt, Ledger.identities, List.getElem?_map, Option.map_map]
    rfl
  rw [secret, secret, alike.identities]

/-- Settling answers the same where the selected balance is the same, and keeps the
ledgers alike in any case. -/
theorem Alike.settle (alike : Alike S l m) (dealt : Nat → Nat) :
    Alike S (l.settle dealt).2 (m.settle dealt).2 ∧
      ((∀ i, l.selected = some i → ¬ S i) → (l.settle dealt).1 = (m.settle dealt).1) := by
  cases selected : l.selected with
  | none =>
      have selected' := alike.selected.symm.trans selected
      simp only [Ledger.settle, selected, selected']
      exact ⟨alike, fun _ => trivial⟩
  | some i =>
      have selected' := alike.selected.symm.trans selected
      simp only [Ledger.settle, selected, selected']
      refine ⟨⟨?_, ?_, fun j low => ?_⟩, fun low => ?_⟩
      · rw [update_identities, update_identities, alike.identities]
      · exact alike.selected
      · by_cases here : i = j
        · subst here
          by_cases inside : i < l.entries.length
          · rw [update_balanceAt_same _ _ _ inside,
              update_balanceAt_same _ _ _ (alike.length ▸ inside), alike.balances i low]
          · have none {k : Ledger α β} (outside : ¬ i < k.entries.length) :
                k.balanceAt i = 0 := by
              rw [Ledger.balanceAt, List.getElem?_eq_none (Nat.le_of_not_lt outside)]
              rfl
            rw [none (by rwa [update_length]), none (by rwa [update_length, ← alike.length])]
        · rw [update_balanceAt_other _ _ _ here, update_balanceAt_other _ _ _ here,
            alike.balances j low]
      · rw [alike.balances i (low i rfl)]

variable [DecidableEq α] {accepts : β → β → Prop} [DecidableRel accepts] {capacity : Nat}

theorem Alike.placeOf (alike : Alike S l m) (owner : α) : l.placeOf owner = m.placeOf owner := by
  have place (k : Ledger α β) : k.placeOf owner = k.identities.findIdx? (·.1 = owner) := by
    rw [Ledger.identities, List.findIdx?_map]
    rfl
  rw [place, place, alike.identities]

/-- Ledgers that are alike answer alike, except for the balance at one of the places
in which they may differ, and stay alike. -/
theorem Alike.perform (alike : Alike S l m) {op : Op α β}
    (performed : perform accepts capacity l op = some (answer, l')) :
    ∃ answer' m', perform accepts capacity m op = some (answer', m') ∧ Alike S l' m' ∧
      ((op.IsMoney ∨ op = .inquire → ∀ i, l.selected = some i → ¬ S i) → answer = answer') := by
  cases op with
  | enter owner secret =>
      rw [Ledgers.perform, alike.placeOf] at performed
      rw [Ledgers.perform]
      cases place : m.placeOf owner with
      | none =>
          rw [place] at performed
          cases performed
          refine ⟨_, _, rfl, ⟨?_, ?_, fun i low => ?_⟩, fun _ => rfl⟩
          · simpa [Ledger.identities] using alike.identities
          · exact congrArg some alike.length
          · have same := alike.balances i low
            simp only [Ledger.balanceAt, List.getElem?_append, alike.length] at same ⊢
            split
            · exact same
            · rfl
      | some i =>
          rw [place] at performed
          simp only [alike.secretAt] at performed
          cases performed
          exact ⟨_, _, rfl, ⟨alike.identities, rfl, alike.balances⟩, fun _ => rfl⟩
  | deposit amount =>
      obtain ⟨kept, same⟩ := alike.settle (afterDeposit capacity amount)
      have settled : l.settle (afterDeposit capacity amount) = (answer, l') :=
        Option.some.inj performed
      rw [settled] at kept same
      exact ⟨_, _, rfl, kept, fun low => same (low (.inl trivial))⟩
  | withdraw amount =>
      obtain ⟨kept, same⟩ := alike.settle (afterWithdraw amount)
      have settled : l.settle (afterWithdraw amount) = (answer, l') := Option.some.inj performed
      rw [settled] at kept same
      exact ⟨_, _, rfl, kept, fun low => same (low (.inl trivial))⟩
  | inquire =>
      obtain ⟨i, selected, same⟩ := Option.map_eq_some_iff.mp performed
      cases same
      refine ⟨.balance (m.balanceAt i), m, ?_, alike, fun low => ?_⟩
      · rw [Ledgers.perform, ← alike.selected, selected]
        rfl
      · rw [alike.balances i (low (.inr rfl) i selected)]
  | reopen =>
      cases performed
      exact ⟨_, _, rfl, ⟨alike.identities, rfl, alike.balances⟩, fun _ => rfl⟩

end Alike

section Explained

/-- Some of the operations, in their order, lead from a new book to the ledger. -/
def Explained [DecidableEq α] (accepts : β → β → Prop) [DecidableRel accepts] (capacity : Nat)
    (ops : List (Op α β)) (l : Ledger α β) : Prop :=
  ∃ made answers, made.Sublist ops ∧ performs accepts capacity .blank made = some (answers, l)

/-- The total of all balances. -/
def Ledger.total (l : Ledger α β) : Nat := (l.entries.map Entry.balance).sum

/-- What an operation pays in at most. -/
def Op.payment : Op α β → Nat
  | .deposit amount => amount
  | _ => 0

theorem write_total {l : Ledger α β} {i : Nat} {e : Entry α β} (known : l.entries[i]? = some e)
    (balance : Nat) : (l.write i e balance).total + e.balance = l.total + balance := by
  have place : (l.entries.map Entry.balance)[i]? = some e.balance := by
    rw [List.getElem?_map, known, Option.map_some]
  obtain ⟨inside, found⟩ := List.getElem?_eq_some_iff.mp place
  have before := List.sum_set (l.entries.map Entry.balance) i e.balance
  have after := List.sum_set (l.entries.map Entry.balance) i balance
  rw [if_pos inside] at before after
  rw [← found, List.set_getElem_self, found] at before
  rw [Ledger.total, Ledger.total, Ledger.write, List.map_set, after, before]
  omega

variable {accepts : β → β → Prop} {capacity : Nat} {ops : List (Op α β)} {op : Op α β}
  {l l' : Ledger α β} {answer : Answer}

/-- A step adds to the total at most what its operation pays in. -/
theorem Step.total (step : Step accepts capacity l (op, answer) l') :
    l'.total ≤ l.total + op.payment := by
  cases step with
  | opened => simp [Ledger.total]
  | @deposited i amount e _ known _ =>
      have written := write_total known (e.balance + amount)
      simp only [Op.payment]
      omega
  | @withdrawn i amount e _ known covered =>
      have written := write_total known (e.balance - amount)
      simp only [Op.payment]
      omega
  | _ => exact Nat.le_add_right _ _

theorem balanceAt_total (l : Ledger α β) (i : Nat) : l.balanceAt i ≤ l.total := by
  rw [Ledger.balanceAt]
  cases known : l.entries[i]? with
  | none => exact Nat.zero_le _
  | some e => exact List.le_sum_of_mem (List.mem_map_of_mem (List.mem_of_getElem? known))

theorem Step.balance_total {amount : Nat}
    (step : Step accepts capacity l (op, .balance amount) l') : amount ≤ l'.total := by
  have known_total {i : Nat} {e : Entry α β} (known : l.entries[i]? = some e) :
      e.balance ≤ l.total := by
    rw [← balanceAt_known known]
    exact balanceAt_total l i
  cases step with
  | @deposited i amount e _ known _ =>
      have written := write_total known (e.balance + amount)
      have part := known_total known
      omega
  | overflowing _ known _ => exact known_total known
  | @withdrawn i amount e _ known _ =>
      have written := write_total known (e.balance - amount)
      have part := known_total known
      omega
  | overdrawn _ known _ => exact known_total known
  | inquired _ known => exact known_total known

/-- Over a run, the total grows at most by what is paid in. -/
theorem total_run {history : List (Transition (Ledger α β) (Op α β × Answer))}
    (run : Run (Step accepts capacity) l history l') :
    l'.total ≤ l.total + (history.map fun move => move.label.1.payment).sum := by
  induction run with
  | nil => simp
  | snoc _ last ih =>
      have newest := last.total
      simp only [List.map_append, List.map_cons, List.map_nil, List.sum_append, List.sum_cons,
        List.sum_nil]
      omega

theorem entered_run {history : List (Transition (Ledger α β) (Op α β × Answer))}
    (run : Run (Step accepts capacity) l history l') {identity : α × β}
    (present : identity ∈ l'.identities) : identity ∈ l.identities ∨
      .enter identity.1 identity.2 ∈ history.map fun move => move.label.1 := by
  induction run with
  | nil => exact .inl present
  | snoc _ last ih =>
      rw [List.map_append]
      rcases last.identities_new present with old | entered
      · exact (ih old).imp_right (List.mem_append_left _)
      · exact .inr (List.mem_append_right _ (List.mem_singleton.mpr entered.symm))

variable [DecidableEq α] [DecidableRel accepts]

theorem explained_blank : Explained accepts capacity ops .blank :=
  ⟨[], [], List.nil_sublist _, rfl⟩

theorem Explained.mono {more : List (Op α β)} (explained : Explained accepts capacity ops l)
    (sublist : ops.Sublist more) : Explained accepts capacity more l := by
  obtain ⟨made, answers, within, performed⟩ := explained
  exact ⟨made, answers, within.trans sublist, performed⟩

theorem Explained.perform (explained : Explained accepts capacity ops l)
    (performed : perform accepts capacity l op = some (answer, l')) :
    Explained accepts capacity (ops ++ [op]) l' := by
  obtain ⟨made, answers, within, before⟩ := explained
  refine ⟨made ++ [op], answers ++ [answer], within.append (List.Sublist.refl _), ?_⟩
  rw [performs_append, before, Option.bind_some, performs, performed]
  rfl

theorem Explained.entered (explained : Explained accepts capacity ops l) {identity : α × β}
    (present : identity ∈ l.identities) : .enter identity.1 identity.2 ∈ ops := by
  obtain ⟨made, answers, within, performed⟩ := explained
  obtain ⟨_, history, run, rfl, _⟩ := performs_run blank_sound performed
  rcases entered_run run present with old | entered
  · cases old
  · exact within.subset entered

theorem Explained.total (explained : Explained accepts capacity ops l) :
    l.total ≤ (ops.map Op.payment).sum := by
  obtain ⟨made, answers, within, performed⟩ := explained
  obtain ⟨_, history, run, rfl, _⟩ := performs_run blank_sound performed
  have bound := total_run run
  rw [← Function.comp_def Op.payment, ← List.map_map] at bound
  have paid := (within.map Op.payment).sum_le_sum fun _ _ => Nat.zero_le _
  have empty : (Ledger.blank : Ledger α β).total = 0 := rfl
  omega

end Explained

section Reopened

variable {γ : Type}

def Op.reopens : Op α β → Bool
  | .reopen => true
  | _ => false

/-- The operations that read nothing of the selection. -/
def Op.Resets : Op α β → Prop
  | .enter _ _ => True
  | .reopen => True
  | _ => False

/-- The second list is the first with reopenings added directly in front of operations
that read nothing of the selection. -/
inductive Reopened (op : γ → Op α β) : List γ → List γ → Prop where
  | nil : Reopened op [] []
  | keep {calls calls' : List γ} (call : γ) (rest : Reopened op calls calls') :
      Reopened op (call :: calls) (call :: calls')
  | reopen {calls calls' : List γ} {next again : γ} (resets : (op next).Resets)
      (reopens : op again = .reopen) (rest : Reopened op (next :: calls) calls') :
      Reopened op (next :: calls) (again :: calls')

/-- The calls with their answers, without the reopenings. -/
def dialogue (op : γ → Op α β) (calls : List γ) (answers : List Answer) : List (γ × Answer) :=
  (calls.zip answers).filter fun said => !(op said.1).reopens

variable [DecidableEq α] {accepts : β → β → Prop} [DecidableRel accepts] {capacity : Nat}
  {op : γ → Op α β} {calls calls' : List γ}

theorem perform_reset {o : Op α β} (resets : o.Resets) (l : Ledger α β) :
    perform accepts capacity ⟨l.entries, none⟩ o = perform accepts capacity l o := by
  cases o with
  | enter owner secret => rfl
  | reopen => rfl
  | _ => cases resets

/-- What one operation puts in front of a dialogue. -/
theorem dialogue_performs (call : γ) (l : Ledger α β) {first : Answer × Ledger α β}
    (performed : perform accepts capacity l (op call) = some first) :
    (performs accepts capacity l ((call :: calls).map op)).map (fun p =>
        (dialogue op (call :: calls) p.1, p.2)) =
      ((performs accepts capacity first.2 (calls.map op)).map fun p =>
        (dialogue op calls p.1, p.2)).map fun rest =>
          (if (op call).reopens then rest.1 else (call, first.1) :: rest.1, rest.2) := by
  rw [List.map_cons, performs, performed, Option.bind_some]
  cases performs accepts capacity first.2 (calls.map op) with
  | none => rfl
  | some p =>
      cases reopens : (op call).reopens <;> simp [dialogue, reopens]

/-- Reopenings in front of such operations change neither an answer to any other operation
nor the ledger that is left. -/
theorem Reopened.performs (reopened : Reopened op calls calls') (l : Ledger α β) :
    (performs accepts capacity l (calls'.map op)).map (fun p => (dialogue op calls' p.1, p.2)) =
      (Ledgers.performs accepts capacity l (calls.map op)).map fun p =>
        (dialogue op calls p.1, p.2) := by
  induction reopened generalizing l with
  | nil => rfl
  | keep call rest ih =>
      cases performed : perform accepts capacity l (op call) with
      | none => simp [Ledgers.performs, performed]
      | some first =>
          rw [dialogue_performs call l performed, dialogue_performs call l performed, ih]
  | @reopen calls calls' next again resets reopens rest ih =>
      have left : perform accepts capacity l (op again) =
          some (.granted, ⟨l.entries, none⟩) := by rw [reopens, perform]
      have same : Ledgers.performs accepts capacity ⟨l.entries, none⟩ ((next :: calls).map op) =
          Ledgers.performs accepts capacity l ((next :: calls).map op) := by
        rw [List.map_cons, Ledgers.performs, perform_reset resets, ← Ledgers.performs]
      rw [dialogue_performs again l left, ih, same, reopens]
      exact congrFun Option.map_id _

end Reopened

end Ledgers
