import SeccapBank.General.Keyed
import SeccapBank.General.Script
import SeccapBank.General.Teller

set_option autoImplicit false

/- The ledger as a book: a partial function from owners to secrets and balances, in which
the entries have no places. A session under one owner is local to the account of this owner,
so that the sessions of different owners can be held in any order. -/
namespace Ledgers

open Keyed Scripts

variable {α β ρ : Type}

@[ext] structure Book (α β : Type) where
  accounts : α → Option (β × Nat)
  current : Option α

section Machine

variable [DecidableEq α]

/-- Whoever is served, with secret and balance. -/
def Book.served (b : Book α β) : Option (α × β × Nat) :=
  b.current.bind fun owner => (b.accounts owner).map fun account => (owner, account)

/-- The book with another account of this owner. -/
def Book.put (b : Book α β) (owner : α) (account : Option (β × Nat)) : Book α β :=
  { b with accounts := Function.update b.accounts owner account }

def Book.settle (b : Book α β) (dealt : Nat → Nat) : Answer × Book α β :=
  match b.served with
  | some (owner, secret, balance) =>
      (.balance (dealt balance), b.put owner (some (secret, dealt balance)))
  | none => (.nobody, b)

variable (accepts : β → β → Prop) [DecidableRel accepts] (capacity : Nat)

def Book.perform (b : Book α β) : Op α β → Option (Answer × Book α β)
  | .enter owner secret =>
      match b.accounts owner with
      | some (stored, _) =>
          some (if accepts stored secret then .granted else .refused, ⟨b.accounts, some owner⟩)
      | none => some (.granted, ⟨(b.put owner (some (secret, 0))).accounts, some owner⟩)
  | .deposit amount => some (b.settle (afterDeposit capacity amount))
  | .withdraw amount => some (b.settle (afterWithdraw amount))
  | .inquire => b.served.map fun served => (.balance served.2.2, b)
  | .reopen => some (.granted, ⟨b.accounts, none⟩)

/-- The book that a ledger is. -/
def Ledger.book (l : Ledger α β) : Book α β where
  accounts owner := (l.placeOf owner).bind fun i =>
    (l.entries[i]?).map fun e => (e.secret, e.balance)
  current := l.selected.bind fun i => (l.entries[i]?).map Entry.owner

end Machine

section Refinement

variable [DecidableEq α] {l l' : Ledger α β}

theorem placeOf_known (nodup : l.owners.Nodup) {i : Nat} {e : Entry α β}
    (known : l.entries[i]? = some e) : l.placeOf e.owner = some i := by
  cases place : l.placeOf e.owner with
  | none =>
      have absent := List.findIdx?_eq_none_iff.mp place e (List.mem_of_getElem? known)
      simp at absent
  | some j =>
      obtain ⟨inside, named, _⟩ := List.findIdx?_eq_some_iff_getElem.mp place
      have found := List.getElem?_eq_getElem inside
      rw [owner_unique nodup found known (of_decide_eq_true named)]

theorem book_known (nodup : l.owners.Nodup) {i : Nat} {e : Entry α β}
    (known : l.entries[i]? = some e) : l.book.accounts e.owner = some (e.secret, e.balance) := by
  simp [Ledger.book, placeOf_known nodup known, known]

theorem book_none {owner : α} : l.book.accounts owner = none ↔ l.placeOf owner = none := by
  cases place : l.placeOf owner with
  | none => simp [Ledger.book, place]
  | some i =>
      obtain ⟨inside, _, _⟩ := List.findIdx?_eq_some_iff_getElem.mp place
      simp [Ledger.book, place, List.getElem?_eq_getElem inside]

/-- The book of a ledger in which one more owner has an entry at the end. -/
theorem book_opened {owner : α} (fresh : l.placeOf owner = none) (secret : β) :
    Ledger.book ⟨l.entries ++ [⟨owner, secret, 0⟩], some l.entries.length⟩ =
      ⟨(l.book.put owner (some (secret, 0))).accounts, some owner⟩ := by
  ext1
  · funext other
    have place : Ledger.placeOf ⟨l.entries ++ [⟨owner, secret, 0⟩], some l.entries.length⟩ other =
        (l.placeOf other).or (if owner = other then some l.entries.length else none) := by
      rw [Ledger.placeOf, List.findIdx?_append, Ledger.placeOf]
      by_cases same : owner = other <;> simp [same]
    by_cases same : other = owner
    · subst same
      simp [Ledger.book, place, fresh, Book.put]
    · have apart : ¬ owner = other := fun equal => same equal.symm
      simp only [Ledger.book, place, apart, if_false, Option.or_none, Book.put,
        Function.update_of_ne same]
      cases found : l.placeOf other with
      | none => rfl
      | some i =>
          obtain ⟨inside, _, _⟩ := List.findIdx?_eq_some_iff_getElem.mp found
          simp [List.getElem?_append_left inside]
  · simp [Ledger.book]

theorem book_write (nodup : l.owners.Nodup) {i : Nat} {e : Entry α β}
    (known : l.entries[i]? = some e) (balance : Nat) :
    (l.write i e balance).book = l.book.put e.owner (some (e.secret, balance)) := by
  have place (owner : α) : (l.write i e balance).placeOf owner = l.placeOf owner := by
    apply Alike.placeOf (S := fun _ => True)
    exact ⟨write_identities known balance, rfl, fun _ high => absurd trivial high⟩
  ext1
  · funext other
    by_cases same : other = e.owner
    · subst same
      simp [Ledger.book, place, placeOf_known nodup known, write_same known, Book.put]
    · simp only [Ledger.book, place, Book.put, Function.update_of_ne same]
      cases found : l.placeOf other with
      | none => rfl
      | some j =>
          obtain ⟨inside, named, _⟩ := List.findIdx?_eq_some_iff_getElem.mp found
          have apart : i ≠ j := by
            rintro rfl
            rw [List.getElem?_eq_getElem inside] at known
            rw [Option.some.inj known] at named
            exact same (of_decide_eq_true named).symm
          rw [Option.bind_some, Option.bind_some, write_other apart]
  · have named (k : Ledger α β) (j : Nat) :
        (k.entries[j]?).map Entry.owner = (k.identities[j]?).map Prod.fst := by
      simp [Ledger.identities, Function.comp_def]
    simp only [Ledger.book, named, write_identities known]
    rfl

variable {accepts : β → β → Prop} [DecidableRel accepts] {capacity : Nat}

theorem settle_book (sound : l.Sound) (nodup : l.owners.Nodup) (dealt : Nat → Nat) :
    ((l.settle dealt).1, (l.settle dealt).2.book) = l.book.settle dealt := by
  rcases settle_cases sound dealt with ⟨nobody, same⟩ | ⟨i, e, selected, known, same⟩
  · rw [same]
    simp [Book.settle, Book.served, Ledger.book, nobody]
  · have served : l.book.served = some (e.owner, e.secret, e.balance) := by
      rw [Book.served, show l.book.current = some e.owner by simp [Ledger.book, selected, known],
        Option.bind_some, book_known nodup known]
      rfl
    rw [same, book_write nodup known, Book.settle, served]

/-- The ledger is its book: one operation has the answer of the book, and leaves its book. -/
theorem perform_book (sound : l.Sound) (nodup : l.owners.Nodup) (op : Op α β) :
    (perform accepts capacity l op).map (fun p => (p.1, p.2.book)) =
      l.book.perform accepts capacity op := by
  cases op with
  | enter owner secret =>
      rw [perform, Book.perform]
      cases place : l.placeOf owner with
      | none =>
          rw [book_none.mpr place]
          exact congrArg (fun b => some (Answer.granted, b)) (book_opened place secret)
      | some i =>
          obtain ⟨inside, named, _⟩ := List.findIdx?_eq_some_iff_getElem.mp place
          have known := List.getElem?_eq_getElem inside
          obtain rfl : l.entries[i].owner = owner := of_decide_eq_true named
          rw [book_known nodup known]
          simp only [Ledger.secretAt, known, Option.map_some, Option.mem_some_iff,
            exists_eq_left', Ledger.book, Option.bind_some]
          rfl
  | deposit amount => exact congrArg some (settle_book sound nodup _)
  | withdraw amount => exact congrArg some (settle_book sound nodup _)
  | inquire =>
      rw [perform, Book.perform]
      cases selected : l.selected with
      | none => simp [Book.served, Ledger.book, selected]
      | some i =>
          have inside := sound i selected
          have known := List.getElem?_eq_getElem inside
          have current : l.book.current = some l.entries[i].owner := by
            simp [Ledger.book, selected, known]
          rw [Book.served, current, Option.bind_some, book_known nodup known]
          simp only [Option.map_some, balanceAt_known known]
  | reopen => rfl

theorem ledger_simulates : Simulates (fun l : Ledger α β => l.Sound ∧ l.owners.Nodup)
    (fun _ => True) Ledger.book (perform accepts capacity) (Book.perform accepts capacity) where
  commutes start _ := perform_book start.1 start.2 _
  kept start performed := by
    obtain ⟨step, sound⟩ := perform_step start.1 performed
    exact ⟨sound, step.owners_nodup start.2⟩

theorem asks_performs (ops : List (Op α β)) (l : Ledger α β) :
    (asks ops).run (perform accepts capacity) l = performs accepts capacity l ops := by
  induction ops generalizing l with
  | nil => rfl
  | cons op ops ih =>
      rw [asks, Script.run, performs]
      congr 1
      funext told
      rw [run_bind, ih]
      cases performs accepts capacity told.2 ops <;> rfl

theorem book_member (nodup : l.owners.Nodup) {identity : α × β} : identity ∈ l.identities ↔
    ∃ balance, l.book.accounts identity.1 = some (identity.2, balance) := by
  constructor
  · intro member
    obtain ⟨e, listed, rfl⟩ := List.mem_map.mp member
    obtain ⟨i, known⟩ := List.getElem?_of_mem listed
    exact ⟨e.balance, book_known nodup known⟩
  · rintro ⟨balance, found⟩
    obtain ⟨i, place, here⟩ := Option.bind_eq_some_iff.mp found
    obtain ⟨e, known, account⟩ := Option.map_eq_some_iff.mp here
    obtain ⟨inside, named, _⟩ := List.findIdx?_eq_some_iff_getElem.mp place
    obtain rfl : l.entries[i] = e :=
      Option.some.inj ((List.getElem?_eq_getElem inside).symm.trans known)
    refine List.mem_map.mpr ⟨l.entries[i], List.getElem_mem inside, ?_⟩
    exact Prod.ext (of_decide_eq_true named) (Prod.mk.inj account).1

/-- Where the accounts are those of two ledgers, every entry is in one of these. -/
theorem book_subset {l'' : Ledger α β} (nodup : l.owners.Nodup) (nodup' : l'.owners.Nodup)
    (nodup'' : l''.owners.Nodup) (grown : l.identities ⊆ l'.identities)
    (from_either : ∀ a, l''.book.accounts a = l.book.accounts a ∨
      l''.book.accounts a = l'.book.accounts a) : l''.identities ⊆ l'.identities := by
  intro identity member
  obtain ⟨balance, found⟩ := (book_member nodup'').mp member
  rcases from_either identity.1 with same | same
  · exact grown ((book_member nodup).mpr ⟨balance, same ▸ found⟩)
  · exact (book_member nodup').mpr ⟨balance, same ▸ found⟩

end Refinement

section Sessions

variable [DecidableEq α]

/-- What one owner can see of the book: the own account, and whether it is served. -/
structure Cell (β : Type) where
  account : Option (β × Nat)
  inside : Bool

/-- An operation that enters under no other owner. -/
def Op.Own (owner : α) : Op α β → Prop
  | .enter other _ => other = owner
  | _ => True

/-- The book around a cell. -/
def Book.hold (b : Book α β) (owner : α) (cell : Cell β) : Book α β :=
  ⟨(b.put owner cell.account).accounts, if cell.inside then some owner else none⟩

variable (accepts : β → β → Prop) [DecidableRel accepts] (capacity : Nat)

def Cell.settle (cell : Cell β) (dealt : Nat → Nat) : Answer × Cell β :=
  match cell.account, cell.inside with
  | some (secret, balance), true =>
      (.balance (dealt balance), ⟨some (secret, dealt balance), true⟩)
  | _, _ => (.nobody, cell)

/-- What an operation of the owner does to the cell. -/
def Cell.perform (cell : Cell β) : Op α β → Option (Answer × Cell β)
  | .enter _ secret =>
      match cell.account with
      | some (stored, balance) =>
          some (if accepts stored secret then .granted else .refused,
            ⟨some (stored, balance), true⟩)
      | none => some (.granted, ⟨some (secret, 0), true⟩)
  | .deposit amount => some (cell.settle (afterDeposit capacity amount))
  | .withdraw amount => some (cell.settle (afterWithdraw amount))
  | .inquire =>
      match cell.account, cell.inside with
      | some (_, balance), true => some (.balance balance, cell)
      | _, _ => none
  | .reopen => some (.granted, ⟨cell.account, false⟩)

/-- What one owner does at a time, whoever was served before. -/
structure Turn (α β ρ : Type) where
  owner : α
  script : Script (Op α β) Answer ρ
  own : script.All (Op.Own owner)
  resets : script.Starts Op.Resets

/-- What a turn makes of the account of its owner. -/
def Turn.visit (turn : Turn α β ρ) (account : Option (β × Nat)) :
    Option (ρ × Option (β × Nat)) :=
  (turn.script.run (Cell.perform accepts capacity) ⟨account, false⟩).map fun first =>
    (first.1, first.2.account)

variable {accepts capacity} {owner : α} {op : Op α β}

theorem hold_put (b : Book α β) (owner : α) (cell : Cell β) (account : Option (β × Nat)) :
    ((b.hold owner cell).put owner account).accounts = (b.put owner account).accounts := by
  simp [Book.hold, Book.put]

theorem hold_served (b : Book α β) (owner : α) (cell : Cell β) :
    (b.hold owner cell).served =
      if cell.inside then cell.account.map fun account => (owner, account) else none := by
  cases cell with
  | mk account inside => cases inside <;> simp [Book.served, Book.hold, Book.put]

theorem hold_settle (b : Book α β) (cell : Cell β) (dealt : Nat → Nat) :
    (b.hold owner cell).settle dealt =
      ((cell.settle dealt).1, b.hold owner (cell.settle dealt).2) := by
  obtain ⟨account, inside⟩ := cell
  rw [Book.settle, hold_served]
  cases account with
  | none => cases inside <;> rfl
  | some account =>
      cases inside with
      | false => rfl
      | true =>
          refine congrArg (Prod.mk _) (Book.ext ?_ rfl)
          exact hold_put b owner _ _

/-- An operation of the owner is local to the cell. -/
theorem hold_perform (b : Book α β) (cell : Cell β) (own : op.Own owner) :
    (b.hold owner cell).perform accepts capacity op =
      (cell.perform accepts capacity op).map fun p => (p.1, b.hold owner p.2) := by
  cases op with
  | enter other secret =>
      obtain rfl : other = owner := own
      have account : (b.hold other cell).accounts other = cell.account := by
        simp [Book.hold, Book.put]
      rw [Book.perform, account, Cell.perform]
      cases found : cell.account with
      | none =>
          refine congrArg (fun c => some (Answer.granted, c)) (Book.ext ?_ rfl)
          exact hold_put b other cell _
      | some stored =>
          refine congrArg (fun c => some (_, c)) (Book.ext ?_ rfl)
          simp [Book.hold, found]
  | deposit amount => exact congrArg some (hold_settle b cell _)
  | withdraw amount => exact congrArg some (hold_settle b cell _)
  | inquire =>
      rw [Book.perform, hold_served, Cell.perform]
      obtain ⟨account, inside⟩ := cell
      cases account with
      | none => cases inside <;> rfl
      | some account => cases inside <;> rfl
  | reopen => rfl

theorem hold_simulates (b : Book α β) (owner : α) :
    Simulates (fun _ => True) (Op.Own owner) (b.hold owner) (Cell.perform accepts capacity)
      (Book.perform accepts capacity) where
  commutes _ own := (hold_perform b _ own).symm
  kept _ _ := trivial

variable {ε : Type} {b c : Book α β} {l l' : Ledger α β} {list list' : List ε}

/-- A script that starts with such an operation reads nothing but the accounts. -/
theorem reset_run {script : Script (Op α β) Answer ρ} (resets : script.Starts Op.Resets)
    (same : b.accounts = c.accounts) :
    (script.run (Book.perform accepts capacity) b).map (fun first => (first.1, first.2.accounts)) =
      (script.run (Book.perform accepts capacity) c).map
        fun first => (first.1, first.2.accounts) := by
  cases script with
  | done result => cases result <;> simp [Script.run, same]
  | ask op next =>
      have alike : b.perform accepts capacity op = c.perform accepts capacity op := by
        cases op with
        | enter owner secret => simp only [Book.perform, Book.put, same]
        | reopen => simp only [Book.perform, same]
        | _ => cases resets
      rw [Script.run, Script.run, alike]

/-- A turn reads the account of its owner, and writes nothing else. -/
theorem turn_local (turn : Turn α β ρ) (b : Book α β) :
    (turn.script.run (Book.perform accepts capacity) b).map
        (fun first => (first.1, first.2.accounts)) =
      (turn.visit accepts capacity (b.accounts turn.owner)).map fun first =>
        (first.1, Function.update b.accounts turn.owner first.2) := by
  have inside : b.accounts = (b.hold turn.owner ⟨b.accounts turn.owner, false⟩).accounts := by
    simp [Book.hold, Book.put]
  rw [reset_run turn.resets inside, ← (hold_simulates b turn.owner).run turn.own trivial,
    Option.map_map, Turn.visit, Option.map_map]
  rfl

theorem turns_errands (turn : ε → Turn α β ρ) (list : List ε) (b : Book α β) :
    (runs (Book.perform accepts capacity) (list.map fun one => (turn one).script) b).map
        (fun all => (all.1, all.2.accounts)) =
      errands (fun one => (turn one).owner) (fun one => (turn one).visit accepts capacity) list
        b.accounts := by
  induction list generalizing b with
  | nil => rfl
  | cons one list ih =>
      have here : _ = ((turn one).visit accepts capacity (b.accounts (turn one).owner)).map _ :=
        turn_local (turn one) b
      rw [List.map_cons, runs, errands]
      cases ran : (turn one).script.run (Book.perform accepts capacity) b with
      | none =>
          rw [ran] at here
          rw [Option.map_eq_none_iff.mp here.symm]
          rfl
      | some first =>
          rw [ran] at here
          obtain ⟨visited, found, same⟩ := Option.map_eq_some_iff.mp here.symm
          obtain ⟨told, accounts⟩ := Prod.mk.inj same
          rw [found, Option.bind_some, Option.bind_some, accounts, ← ih, Option.map_map,
            Option.map_map, told]
          rfl

/-- On the ledger too, turns are errands on the accounts of its book. -/
theorem ledger_errands (turn : ε → Turn α β ρ) (start : l.Sound ∧ l.owners.Nodup)
    (list : List ε) :
    (runs (perform accepts capacity) (list.map fun one => (turn one).script) l).map
        (fun all => (all.1, all.2.book.accounts)) =
      errands (fun one => (turn one).owner) (fun one => (turn one).visit accepts capacity) list
        l.book.accounts := by
  rw [← turns_errands, ← ledger_simulates.runs (fun _ _ => Script.all_true _) start,
    Option.map_map]
  rfl

theorem errands_ledger (turn : ε → Turn α β ρ) (start : l.Sound ∧ l.owners.Nodup) {results : List ρ}
    {accounts : α → Option (β × Nat)} (ran : errands (fun one => (turn one).owner)
      (fun one => (turn one).visit accepts capacity) list l.book.accounts =
        some (results, accounts)) :
    ∃ l', runs (perform accepts capacity) (list.map fun one => (turn one).script) l =
      some (results, l') ∧ l'.book.accounts = accounts := by
  rw [← ledger_errands turn start] at ran
  obtain ⟨⟨_, l'⟩, taken, same⟩ := Option.map_eq_some_iff.mp ran
  obtain ⟨rfl, accounts⟩ := Prod.mk.inj same
  exact ⟨l', taken, accounts⟩

/-- Turns can be reordered as long as each owner keeps the own order: everybody has the same
results, and the accounts are the same in the end. -/
theorem turns_any_order (turn : ε → Turn α β ρ) (start : l.Sound ∧ l.owners.Nodup)
    (same : ∀ a, ownedBy (fun one => (turn one).owner) a list =
      ownedBy (fun one => (turn one).owner) a list') {results : List ρ}
    (taken : runs (perform accepts capacity) (list.map fun one => (turn one).script) l =
      some (results, l')) :
    ∃ results' l'', runs (perform accepts capacity) (list'.map fun one => (turn one).script) l =
        some (results', l'') ∧ l''.book.accounts = l'.book.accounts ∧
          ∀ a, toldTo (fun one => (turn one).owner) a list' results' =
            toldTo (fun one => (turn one).owner) a list results := by
  have ran : _ = errands _ (fun one => (turn one).visit accepts capacity) _ _ :=
    ledger_errands turn start list
  rw [taken] at ran
  obtain ⟨results', ran', told⟩ := errands_any_order same ran.symm
  obtain ⟨l'', taken', accounts⟩ := errands_ledger turn start ran'
  exact ⟨results', l'', taken', accounts, told⟩

/-- Without the turns of all others an owner has the same results, and the same account in
the end. -/
theorem turns_alone (turn : ε → Turn α β ρ) (start : l.Sound ∧ l.owners.Nodup) (a : α)
    {results : List ρ}
    (taken : runs (perform accepts capacity) (list.map fun one => (turn one).script) l =
      some (results, l')) :
    ∃ l'', runs (perform accepts capacity)
        ((ownedBy (fun one => (turn one).owner) a list).map fun one => (turn one).script) l =
          some (toldTo (fun one => (turn one).owner) a list results, l'') ∧
        l''.book.accounts = Function.update l.book.accounts a (l'.book.accounts a) := by
  have ran : _ = errands _ (fun one => (turn one).visit accepts capacity) _ _ :=
    ledger_errands turn start list
  rw [taken] at ran
  exact errands_ledger turn start (errands_alone rfl ran.symm)

end Sessions

end Ledgers
