import SeccapBank.Durability

set_option autoImplicit false

/- Names and passwords over whole runs, with restarts between any two calls. -/
namespace SeccapBank

open CStrings Fallible Runs Ledgers

variable (sgx : Sgx) {before w w' start : World} {history : List Move}

theorem passwordAccepts_refl (password : Bytes) : passwordAccepts password password := rfl

theorem synced_names_nodup (doc : sgx.Documented) (reliable : sgx.Reliable)
    (synced : Synced sgx start) (distinct : (start.accounts.map Account.name).Nodup)
    (separated : ∀ move ∈ history, move.label.1.CommaFree)
    (fits : ∀ move ∈ history, StoresWithin sgx 65535 move) (run : EcallRun sgx start history w) :
    (w.accounts.map Account.name).Nodup := by
  obtain ⟨_, ledgerHistory, ledgerRun⟩ := synced_run sgx doc reliable synced separated fits run
  rw [← ledger_owners] at distinct ⊢
  exact owners_nodup_run distinct ledgerRun

/-- The password alone decides a login under this name, and the account it selects is
always the one at this place. -/
def LoginDecided (i : Nat) (name password : CString) (again : Move) : Prop :=
  ∀ other answer, again.label = (.newAccount name other, answer) →
    (answer = .result .processSuccess ↔ other = password) ∧
      (other = password → again.post.currentIndex = some i ∧
        again.post.accounts = again.pre.accounts)

/-- What holds of the list and of the session pointer in every state of a run, and of
the calls that led to it. -/
structure IdentityStable (history : List Move) (w : World) : Prop where
  distinct : (w.accounts.map Account.name).Nodup
  current : ∀ manager, w.dealManager = some manager →
    ∀ ptr, manager.currentAccount = some ptr → ptr ∈ manager.accountList
  grows : ∀ move ∈ history, move.pre.identities <+: move.post.identities
  decided : ∀ earlier first later name password, history = earlier ++ first :: later →
    first.label = (.newAccount name password, .result .processSuccess) →
      ∃ i, first.post.currentIndex = some i ∧ ∀ again ∈ later, LoginDecided i name password again

theorem granted_iff {answer : Answer} :
    answerReturned answer = .result .processSuccess ↔ answer = .granted := by
  cases answer <;> simp [answerReturned]

/-- Two strings that one stored password accepts are the same. -/
theorem accepts_iff {stored : Bytes} {password : CString}
    (accepted : passwordAccepts stored password.bytes) (other : CString) :
    passwordAccepts stored other.bytes ↔ other = password := by
  unfold passwordAccepts at accepted ⊢
  rw [← accepted, CString.cstr_bytes, CString.cstr_bytes]
  constructor
  · intro same
    cases other
    cases password
    cases same
    rfl
  · rintro rfl
    rfl

theorem accounts_of_entries (same : w'.ledger.entries = w.ledger.entries) :
    w'.accounts = w.accounts :=
  List.map_injective_iff.mpr (fun _ _ => entry_inj) same

/-- Later logins under a name that was granted entry once. -/
theorem login_decided (doc : sgx.Documented) (reliable : sgx.Reliable)
    (synced : Synced sgx start) (distinct : (start.accounts.map Account.name).Nodup)
    {first : Move} {later : List Move} {name password : CString}
    (separated : ∀ move ∈ first :: later, move.label.1.CommaFree)
    (fits : ∀ move ∈ first :: later, StoresWithin sgx 65535 move)
    (run : EcallRun sgx start (first :: later) w)
    (granted : first.label = (.newAccount name password, .result .processSuccess)) :
    ∃ i, first.post.currentIndex = some i ∧
      ∀ again ∈ later, LoginDecided i name password again := by
  have newest : first ∈ first :: later := List.mem_cons_self ..
  obtain ⟨step, atStart, rest⟩ := (show EcallRun sgx start ([] ++ first :: later) w from run).cut
  obtain rfl := atStart.of_nil
  obtain ⟨synced', answer, encoded, refined⟩ :=
    synced_step sgx doc reliable synced (separated _ newest) step (fits _ newest)
  rw [granted] at encoded refined
  obtain rfl := granted_iff.mp encoded.symm
  obtain ⟨i, e, _, _, _, selected⟩ := refined.entered passwordAccepts_refl
  refine ⟨i, selected, fun again member other answer label => ?_⟩
  -- the run from the first login to this one
  obtain ⟨middle, behind, rfl⟩ := List.append_of_mem member
  obtain ⟨stepAgain, between, _⟩ := rest.cut
  have separatedMiddle : ∀ move ∈ middle, move.label.1.CommaFree := fun move old =>
    separated move (by simp [old])
  have fitsMiddle : ∀ move ∈ middle, StoresWithin sgx 65535 move := fun move old =>
    fits move (by simp [old])
  have distinct' : (first.post.accounts.map Account.name).Nodup := by
    rw [← ledger_owners] at distinct ⊢
    exact refined.owners_nodup distinct
  have distinctMiddle := synced_names_nodup sgx doc reliable synced' distinct' separatedMiddle
    fitsMiddle between
  obtain ⟨syncedMiddle, ledgerHistory, ledgerRun⟩ :=
    synced_run sgx doc reliable synced' separatedMiddle fitsMiddle between
  obtain ⟨_, ledgerAnswer, encodedAgain, refinedAgain⟩ := synced_step sgx doc reliable syncedMiddle
    (separated again (by simp)) stepAgain (fits again (by simp))
  rw [label] at encodedAgain refinedAgain
  rw [← ledger_owners] at distinctMiddle
  obtain ⟨j, stored, accepted, same, entries, decided⟩ :=
    entered_again passwordAccepts_refl distinctMiddle refined ledgerRun refinedAgain
  obtain rfl := Option.some.inj (selected.symm.trans same)
  have accounts : again.post.accounts = again.pre.accounts := accounts_of_entries entries
  have iff := accepts_iff accepted other
  rcases decided with ⟨rfl, accepts, there⟩ | ⟨rfl, refuses⟩
  · exact ⟨iff_of_true encodedAgain (iff.mp accepts), fun _ => ⟨there, accounts⟩⟩
  · have wrong := mt iff.mpr refuses
    refine ⟨iff_of_false (fun success => ?_) wrong, fun right => absurd right wrong⟩
    cases granted_iff.mp (encodedAgain.symm.trans success)

/-- Account identity is stable in every run from an empty file whose stores stay
within the limit. -/
theorem identity_stable (doc : sgx.Documented) (reliable : sgx.Reliable) {answer : Returned}
    (empty : before.accountFile = some [])
    (opening : EcallStep sgx before (.initManager, answer) start)
    (run : EcallRun sgx start history w)
    (separated : ∀ move ∈ history, move.label.1.CommaFree)
    (limit : ∀ move ∈ history, StoresWithin sgx 10000 move) :
    IdentityStable history w ∧ ∀ call, (call = .myInquiry → w.currentIndex ≠ none) →
      ∃ returned w', EcallStep sgx w (call, returned) w' := by
  have fits : ∀ move ∈ history, StoresWithin sgx 65535 move := fun move member stores =>
    (limit move member stores).trans (by decide)
  obtain ⟨opened, none, _⟩ := synced_opening sgx empty opening
  have distinct : (start.accounts.map Account.name).Nodup := by
    rw [none]
    exact List.nodup_nil
  obtain ⟨synced, _⟩ := synced_run sgx doc reliable opened separated fits run
  refine ⟨⟨?_, ?_, ?_, ?_⟩, fun call loggedIn => synced_returns sgx doc synced loggedIn⟩
  · exact synced_names_nodup sgx doc reliable opened distinct separated fits run
  · obtain ⟨⟨manager, content, wf, _, _⟩, _⟩ := synced
    intro other present ptr current
    obtain rfl := Option.some.inj (wf.present.symm.trans present)
    exact wf.current ptr current
  · intro move member
    obtain ⟨step, earlier, later, rfl, first, _⟩ := run.of_mem member
    obtain ⟨syncedThere, _⟩ := synced_run sgx doc reliable opened
      (fun m old => separated m (List.mem_append_left _ old))
      (fun m old => fits m (List.mem_append_left _ old)) first
    obtain ⟨_, ledgerAnswer, _, refined⟩ :=
      synced_step sgx doc reliable syncedThere (separated move member) step (fits move member)
    rw [← ledger_identities, ← ledger_identities]
    exact refined.identities_grow
  · rintro earlier first later name password rfl granted
    obtain ⟨middle, front, back⟩ := run.split
    have separatedFront := fun move old =>
      separated move (List.mem_append_left (first :: later) old)
    have fitsFront := fun move old => fits move (List.mem_append_left (first :: later) old)
    obtain ⟨syncedMiddle, _⟩ := synced_run sgx doc reliable opened separatedFront fitsFront front
    have distinctMiddle := synced_names_nodup sgx doc reliable opened distinct separatedFront
      fitsFront front
    exact login_decided sgx doc reliable syncedMiddle distinctMiddle
      (fun move new => separated move (List.mem_append_right _ new))
      (fun move new => fits move (List.mem_append_right _ new)) back granted

instance (limit : Nat) (move : Move) : Decidable (StoresWithin sgx limit move) :=
  inferInstanceAs (Decidable (_ < _ → _ ≤ _))

/-- A registration, a deposit, a restart, and a login under the same name. -/
theorem identity_session : ∃ history w, EcallRun clearSealing emptyBank history w ∧
    w.accounts.length = 1 ∧ IdentityStable history w := by
  have checked : (ecallTrace clearSealing ordinaryCalls emptyBank).map (fun traced =>
      (decide (∀ move ∈ traced.1, StoresWithin clearSealing 10000 move),
        traced.2.accounts.length)) = .ok (true, 1) := by
    decide +kernel
  obtain ⟨⟨history, w⟩, traced, facts⟩ := map_ok checked
  obtain ⟨within, length⟩ := Prod.mk.inj facts
  obtain ⟨run, made⟩ := ecallTrace_run clearSealing traced
  have stable := identity_stable clearSealing clearSealing_documented clearSealing_reliable rfl
    (emptyBank_opening clearSealing) run (made_all Ecall.CommaFree made (by decide))
    (of_decide_eq_true within)
  exact ⟨history, w, run, length, stable.1⟩

end SeccapBank
