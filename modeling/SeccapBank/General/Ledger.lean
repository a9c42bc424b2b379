import SeccapBank.General.Run

set_option autoImplicit false

/- A ledger of balances, each guarded by a secret. One entry at a time may be
selected, and money moves only on the selected entry. -/
namespace Ledgers

open Runs

structure Entry (α β : Type) where
  owner : α
  secret : β
  balance : Nat

structure Ledger (α β : Type) where
  entries : List (Entry α β)
  selected : Option Nat

inductive Op (α β : Type) where
  | enter (owner : α) (secret : β)
  | deposit (amount : Nat)
  | withdraw (amount : Nat)
  | inquire
  | reopen

inductive Answer where
  | granted
  | refused
  | balance (amount : Nat)
  | nobody

variable {α β : Type} (accepts : β → β → Prop) (capacity : Nat)

/-- The ledger with another balance at one place. -/
def Ledger.write (l : Ledger α β) (i : Nat) (e : Entry α β) (balance : Nat) : Ledger α β :=
  { l with entries := l.entries.set i { e with balance } }

/-- What one operation may do. An unknown owner opens an entry, a known one is
admitted by an accepted secret, and what a refusal selects is left open. -/
inductive Step : Ledger α β → Op α β × Answer → Ledger α β → Prop where
  | opened {l : Ledger α β} {owner : α} {secret : β} (fresh : ∀ e ∈ l.entries, e.owner ≠ owner) :
      Step l (.enter owner secret, .granted)
        ⟨l.entries ++ [⟨owner, secret, 0⟩], some l.entries.length⟩
  | admitted {l : Ledger α β} {i : Nat} {e : Entry α β} {secret : β}
      (known : l.entries[i]? = some e) (accepted : accepts e.secret secret) :
      Step l (.enter e.owner secret, .granted) ⟨l.entries, some i⟩
  | refused {l : Ledger α β} {i : Nat} {e : Entry α β} {secret : β} {selected : Option Nat}
      (known : l.entries[i]? = some e) (wrong : ¬ accepts e.secret secret) :
      Step l (.enter e.owner secret, .refused) ⟨l.entries, selected⟩
  | deposited {l : Ledger α β} {i amount : Nat} {e : Entry α β} (selected : l.selected = some i)
      (known : l.entries[i]? = some e) (fits : e.balance + amount ≤ capacity) :
      Step l (.deposit amount, .balance (e.balance + amount)) (l.write i e (e.balance + amount))
  | overflowing {l : Ledger α β} {i amount : Nat} {e : Entry α β} (selected : l.selected = some i)
      (known : l.entries[i]? = some e) (full : capacity < e.balance + amount) :
      Step l (.deposit amount, .balance e.balance) l
  | withdrawn {l : Ledger α β} {i amount : Nat} {e : Entry α β} (selected : l.selected = some i)
      (known : l.entries[i]? = some e) (covered : amount ≤ e.balance) :
      Step l (.withdraw amount, .balance (e.balance - amount)) (l.write i e (e.balance - amount))
  | overdrawn {l : Ledger α β} {i amount : Nat} {e : Entry α β} (selected : l.selected = some i)
      (known : l.entries[i]? = some e) (short : e.balance < amount) :
      Step l (.withdraw amount, .balance e.balance) l
  | inquired {l : Ledger α β} {i : Nat} {e : Entry α β} (selected : l.selected = some i)
      (known : l.entries[i]? = some e) : Step l (.inquire, .balance e.balance) l
  | undeposited {l : Ledger α β} {amount : Nat} (nobody : l.selected = none) :
      Step l (.deposit amount, .nobody) l
  | unwithdrawn {l : Ledger α β} {amount : Nat} (nobody : l.selected = none) :
      Step l (.withdraw amount, .nobody) l
  | reopened {l : Ledger α β} : Step l (.reopen, .granted) ⟨l.entries, none⟩

/-- The owners and secrets, in order. -/
def Ledger.identities (l : Ledger α β) : List (α × β) := l.entries.map fun e => (e.owner, e.secret)

def Ledger.owners (l : Ledger α β) : List α := l.entries.map Entry.owner

/-- The balance at a place, nothing where there is no entry yet. -/
def Ledger.balanceAt (l : Ledger α β) (i : Nat) : Nat := ((l.entries[i]?).map Entry.balance).getD 0

/-- Money operations are those that may move a balance. -/
def Op.IsMoney : Op α β → Prop
  | .deposit _ => True
  | .withdraw _ => True
  | _ => False

/-- What a step adds to the balance at a place: the amount of a deposit that
fits, and minus the amount of a withdrawal that is covered. -/
def credit (i : Nat) (move : Transition (Ledger α β) (Op α β × Answer)) : Int :=
  if move.pre.selected = some i then
    match move.label.1 with
    | .deposit amount => if move.pre.balanceAt i + amount ≤ capacity then amount else 0
    | .withdraw amount => if amount ≤ move.pre.balanceAt i then -(amount : Int) else 0
    | _ => 0
  else 0

theorem balanceAt_known {l : Ledger α β} {i : Nat} {e : Entry α β}
    (known : l.entries[i]? = some e) : l.balanceAt i = e.balance := by
  simp [Ledger.balanceAt, known]

theorem write_other {l : Ledger α β} {i j : Nat} (other : i ≠ j) (e : Entry α β) (balance : Nat) :
    (l.write i e balance).entries[j]? = l.entries[j]? :=
  List.getElem?_set_ne other

theorem write_same {l : Ledger α β} {i : Nat} {e : Entry α β} (known : l.entries[i]? = some e)
    (balance : Nat) : (l.write i e balance).entries[i]? = some { e with balance } := by
  have inside : i < l.entries.length := (List.getElem?_eq_some_iff.mp known).1
  exact List.getElem?_set_self inside

@[simp] theorem write_identities {l : Ledger α β} {i : Nat} {e : Entry α β}
    (known : l.entries[i]? = some e) (balance : Nat) :
    (l.write i e balance).identities = l.identities := by
  apply List.ext_getElem?
  intro j
  simp only [Ledger.identities, List.getElem?_map]
  by_cases same : i = j
  · subst same
    rw [write_same known, known]
    rfl
  · rw [write_other same]

theorem write_balanceAt {l : Ledger α β} {i : Nat} {e : Entry α β} (known : l.entries[i]? = some e)
    (balance j : Nat) :
    (l.write i e balance).balanceAt j = if i = j then balance else l.balanceAt j := by
  by_cases same : i = j
  · subst same
    rw [balanceAt_known (write_same known balance), if_pos rfl]
  · rw [Ledger.balanceAt, write_other same, if_neg same]
    rfl

variable {accepts capacity} {l l' : Ledger α β}

theorem Step.asked_keeps {op : Op α β} {answer : Answer} (asked : op.IsMoney ∨ op = .inquire)
    (step : Step accepts capacity l (op, answer) l') :
    l'.selected = l.selected ∧ l'.identities = l.identities := by
  cases step with
  | deposited _ known _ => exact ⟨rfl, write_identities known _⟩
  | withdrawn _ known _ => exact ⟨rfl, write_identities known _⟩
  | overflowing => exact ⟨rfl, rfl⟩
  | overdrawn => exact ⟨rfl, rfl⟩
  | undeposited => exact ⟨rfl, rfl⟩
  | unwithdrawn => exact ⟨rfl, rfl⟩
  | inquired => exact ⟨rfl, rfl⟩
  | _ =>
      rcases asked with money | inquiry
      · cases money
      · cases inquiry

/-- A money operation touches no entry but the selected one. -/
theorem Step.money_frame {op : Op α β} {answer : Answer} (money : op.IsMoney)
    (step : Step accepts capacity l (op, answer) l') {j : Nat} (other : l.selected ≠ some j) :
    l'.entries[j]? = l.entries[j]? := by
  cases step with
  | deposited selected _ _ =>
      exact write_other (fun same => other (by rw [selected, same])) _ _
  | withdrawn selected _ _ =>
      exact write_other (fun same => other (by rw [selected, same])) _ _
  | overflowing => rfl
  | overdrawn => rfl
  | undeposited => rfl
  | unwithdrawn => rfl
  | _ => cases money

/-- With an entry selected, a money operation or an inquiry answers with the balance
that this entry has afterwards. -/
theorem Step.answer_selected {op : Op α β} {answer : Answer} (asked : op.IsMoney ∨ op = .inquire)
    (step : Step accepts capacity l (op, answer) l') {i : Nat} (selected : l.selected = some i) :
    ∃ e, l'.entries[i]? = some e ∧ answer = .balance e.balance := by
  cases step with
  | deposited here known _ =>
      obtain rfl := Option.some.inj (here.symm.trans selected)
      exact ⟨_, write_same known _, rfl⟩
  | withdrawn here known _ =>
      obtain rfl := Option.some.inj (here.symm.trans selected)
      exact ⟨_, write_same known _, rfl⟩
  | overflowing here known _ =>
      obtain rfl := Option.some.inj (here.symm.trans selected)
      exact ⟨_, known, rfl⟩
  | overdrawn here known _ =>
      obtain rfl := Option.some.inj (here.symm.trans selected)
      exact ⟨_, known, rfl⟩
  | inquired here known =>
      obtain rfl := Option.some.inj (here.symm.trans selected)
      exact ⟨_, known, rfl⟩
  | undeposited nobody =>
      rw [nobody] at selected
      cases selected
  | unwithdrawn nobody =>
      rw [nobody] at selected
      cases selected
  | _ =>
      rcases asked with money | inquiry
      · cases money
      · cases inquiry

/-- Identities are never changed or removed, and new ones come at the end. -/
theorem Step.identities_grow {op : Op α β} {answer : Answer}
    (step : Step accepts capacity l (op, answer) l') : l.identities <+: l'.identities := by
  cases step with
  | opened => simp [Ledger.identities]
  | deposited _ known _ => rw [write_identities known]
  | withdrawn _ known _ => rw [write_identities known]
  | _ => exact List.prefix_refl _

theorem Step.identities_new {op : Op α β} {answer : Answer}
    (step : Step accepts capacity l (op, answer) l') {identity : α × β}
    (present : identity ∈ l'.identities) :
    identity ∈ l.identities ∨ op = .enter identity.1 identity.2 := by
  cases step with
  | @opened owner secret fresh =>
      simp only [Ledger.identities, List.map_append, List.map_cons, List.map_nil,
        List.mem_append, List.mem_singleton] at present
      rcases present with old | rfl
      · exact .inl old
      · exact .inr rfl
  | deposited _ known _ => exact .inl (write_identities known _ ▸ present)
  | withdrawn _ known _ => exact .inl (write_identities known _ ▸ present)
  | _ => exact .inl present

theorem Step.owners_nodup {op : Op α β} {answer : Answer} (nodup : l.owners.Nodup)
    (step : Step accepts capacity l (op, answer) l') : l'.owners.Nodup := by
  have owners (a : Ledger α β) : a.owners = a.identities.map Prod.fst := by
    simp [Ledger.owners, Ledger.identities]
  cases step with
  | opened fresh =>
      simp only [Ledger.owners, List.map_append, List.map_cons, List.map_nil]
      refine List.nodup_append.mpr ⟨nodup, List.nodup_singleton _, ?_⟩
      intro owner member other single same
      obtain ⟨e, known, rfl⟩ := List.mem_map.mp member
      exact fresh e known (same.trans (List.mem_singleton.mp single))
  | deposited _ known _ => rwa [owners, write_identities known, ← owners]
  | withdrawn _ known _ => rwa [owners, write_identities known, ← owners]
  | _ => exact nodup

theorem owner_unique {i j : Nat} {e e' : Entry α β} (nodup : l.owners.Nodup)
    (known : l.entries[i]? = some e) (known' : l.entries[j]? = some e')
    (same : e.owner = e'.owner) : i = j := by
  have left : l.owners[i]? = some e.owner := by simp [Ledger.owners, known]
  have right : l.owners[j]? = some e'.owner := by simp [Ledger.owners, known']
  have inside : i < l.owners.length := (List.getElem?_eq_some_iff.mp left).1
  apply (List.getElem?_inj inside nodup).mp
  rw [left, right, same]

/-- Entering under the owner of an existing entry is decided by that entry's
secret; when it is granted that entry is selected and no entry changes. -/
theorem Step.enter_known {i : Nat} {e : Entry α β} {secret : β} {answer : Answer}
    (nodup : l.owners.Nodup) (known : l.entries[i]? = some e)
    (step : Step accepts capacity l (.enter e.owner secret, answer) l') :
    l'.entries = l.entries ∧
      (answer = .granted ∧ accepts e.secret secret ∧ l'.selected = some i ∨
        answer = .refused ∧ ¬ accepts e.secret secret) := by
  have unique {j : Nat} {e' : Entry α β} (known' : l.entries[j]? = some e')
      (same : e'.owner = e.owner) : j = i ∧ e' = e := by
    have place := owner_unique nodup known' known same
    subst place
    rw [known] at known'
    exact ⟨rfl, (Option.some.inj known').symm⟩
  generalize name : e.owner = owner at step
  cases step with
  | opened fresh => exact absurd name (fresh e (List.mem_of_getElem? known))
  | admitted known' accepted =>
      obtain ⟨rfl, rfl⟩ := unique known' name.symm
      exact ⟨rfl, .inl ⟨rfl, accepted, rfl⟩⟩
  | refused known' wrong =>
      obtain ⟨rfl, rfl⟩ := unique known' name.symm
      exact ⟨rfl, .inr ⟨rfl, wrong⟩⟩

/-- One step moves each balance by exactly its credit. -/
theorem Step.balance {op : Op α β} {answer : Answer}
    (step : Step accepts capacity l (op, answer) l') (i : Nat) :
    (l'.balanceAt i : Int) = l.balanceAt i + credit capacity i ⟨l, (op, answer), l'⟩ := by
  cases step with
  | @opened owner secret fresh =>
      by_cases inside : i < l.entries.length
      · simp [credit, Ledger.balanceAt, List.getElem?_append_left inside]
      · by_cases last : i = l.entries.length
        · subst last
          simp [credit, Ledger.balanceAt]
        · have beyond : (l.entries ++ [Entry.mk owner secret 0]).length ≤ i := by
            simp only [List.length_append, List.length_singleton]
            omega
          simp [credit, Ledger.balanceAt, List.getElem?_eq_none beyond,
            List.getElem?_eq_none (Nat.le_of_not_lt inside)]
  | @deposited k amount e selected known fits =>
      rw [write_balanceAt known]
      by_cases same : k = i
      · subst same
        simp [credit, selected, balanceAt_known known, fits]
      · simp [credit, selected, same]
  | @overflowing k amount e selected known full =>
      by_cases same : k = i
      · subst same
        simp [credit, selected, balanceAt_known known, Nat.not_le.mpr full]
      · simp [credit, selected, same]
  | @withdrawn k amount e selected known covered =>
      rw [write_balanceAt known]
      by_cases same : k = i
      · subst same
        simp only [↓reduceIte, credit, selected, balanceAt_known known, covered]
        omega
      · simp [credit, selected, same]
  | @overdrawn k amount e selected known short =>
      by_cases same : k = i
      · subst same
        simp [credit, selected, balanceAt_known known, Nat.not_le.mpr short]
      · simp [credit, selected, same]
  | undeposited nobody => simp [credit, nobody]
  | unwithdrawn nobody => simp [credit, nobody]
  | _ => simp [credit, Ledger.balanceAt]

/-- Over a whole run each balance moves by exactly the sum of its credits. -/
theorem balance_run {history : List (Transition (Ledger α β) (Op α β × Answer))}
    (run : Run (Step accepts capacity) l history l') (i : Nat) :
    (l'.balanceAt i : Int) = l.balanceAt i + (history.map (credit capacity i)).sum := by
  induction run with
  | nil => simp
  | @snoc history before after label _ last ih =>
      rw [Step.balance last i, ih]
      simp only [List.map_append, List.map_cons, List.map_nil, List.sum_append, List.sum_cons,
        List.sum_nil]
      ring

/-- Identities only ever grow at the end, over any run. -/
theorem identities_run {history : List (Transition (Ledger α β) (Op α β × Answer))}
    (run : Run (Step accepts capacity) l history l') : l.identities <+: l'.identities := by
  refine run.relates (R := fun a b => a.identities <+: b.identities)
    (fun _ => List.prefix_refl _) (fun _ _ _ => List.IsPrefix.trans) ?_
  intro move member
  exact Step.identities_grow (run.of_mem member).1

theorem owners_nodup_run {history : List (Transition (Ledger α β) (Op α β × Answer))}
    (nodup : l.owners.Nodup) (run : Run (Step accepts capacity) l history l') :
    l'.owners.Nodup :=
  run.invariant (fun ledger => ledger.owners.Nodup) nodup
    fun _ _ _ nodup step => Step.owners_nodup nodup step

theorem kept_of_map_prefix {γ δ : Type} {f : γ → δ} {xs ys : List γ} {i : Nat} {x : γ}
    (prefixed : xs.map f <+: ys.map f) (known : xs[i]? = some x) :
    ∃ y, ys[i]? = some y ∧ f y = f x := by
  have image : (xs.map f)[i]? = some (f x) := by rw [List.getElem?_map, known, Option.map_some]
  have inside : i < (xs.map f).length := (List.getElem?_eq_some_iff.mp image).1
  obtain ⟨rest, whole⟩ := prefixed
  have same : (ys.map f)[i]? = some (f x) := by
    rw [← whole, List.getElem?_append_left inside, image]
  rw [List.getElem?_map] at same
  exact Option.map_eq_some_iff.mp same

/-- An entry keeps its place, its owner and its secret. -/
theorem entry_run {history : List (Transition (Ledger α β) (Op α β × Answer))}
    (run : Run (Step accepts capacity) l history l') {i : Nat} {e : Entry α β}
    (known : l.entries[i]? = some e) :
    ∃ e', l'.entries[i]? = some e' ∧ e'.owner = e.owner ∧ e'.secret = e.secret := by
  obtain ⟨e', found, pair⟩ := kept_of_map_prefix (identities_run run) known
  obtain ⟨owner, secret⟩ := Prod.mk.inj pair
  exact ⟨e', found, owner, secret⟩

/-- Whoever is granted entry is an entry whose secret accepts what was given. -/
theorem Step.entered (refl : ∀ secret, accepts secret secret) {owner : α} {secret : β}
    (step : Step accepts capacity l (.enter owner secret, .granted) l') :
    ∃ i e, l'.entries[i]? = some e ∧ e.owner = owner ∧ accepts e.secret secret ∧
      l'.selected = some i := by
  cases step with
  | opened fresh => exact ⟨_, _, List.getElem?_concat_length, rfl, refl secret, rfl⟩
  | admitted known accepted => exact ⟨_, _, known, rfl, accepted, rfl⟩

/-- Once an owner was granted entry, every later entry under it is decided by one and
the same stored secret, selects the same place and opens no new one. -/
theorem entered_again (refl : ∀ secret, accepts secret secret) {l1 l2 l3 : Ledger α β}
    {owner : α} {secret other : β} {answer : Answer}
    {history : List (Transition (Ledger α β) (Op α β × Answer))} (nodup : l2.owners.Nodup)
    (first : Step accepts capacity l (.enter owner secret, .granted) l1)
    (run : Run (Step accepts capacity) l1 history l2)
    (again : Step accepts capacity l2 (.enter owner other, answer) l3) :
    ∃ i stored, accepts stored secret ∧ l1.selected = some i ∧ l3.entries = l2.entries ∧
      (answer = .granted ∧ accepts stored other ∧ l3.selected = some i ∨
        answer = .refused ∧ ¬ accepts stored other) := by
  obtain ⟨i, e, known, rfl, accepted, selected⟩ := first.entered refl
  obtain ⟨e', known', same, kept⟩ := entry_run run known
  rw [← same] at again
  obtain ⟨entries, decided⟩ := again.enter_known nodup known'
  exact ⟨i, e'.secret, kept ▸ accepted, selected, entries, decided⟩

end Ledgers
