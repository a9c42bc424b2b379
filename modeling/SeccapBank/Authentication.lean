import SeccapBank.LedgerExactness

set_option autoImplicit false

/- The session pointer over whole runs: who was authenticated for what it points to. -/
namespace SeccapBank

open CStrings Fallible Runs Ledgers

variable (sgx : Sgx) {before w w' start : World} {manager : DealManager} {history : List Move}

/-- A call under the name and with the password of this account that returned
PROCESS_SUCCESS and left the account at this place current. -/
def Admits (i : Nat) (account : Account) (move : Move) : Prop :=
  ∃ name password, move.label = (.newAccount name password, .result .processSuccess) ∧
    account.name = name.bytes ∧ cstr account.password = password.bytes ∧
      move.post.currentIndex = some i

/-- The current account was made current by a call that gave its password, and has
been current ever since. -/
def SessionOpened (history : List Move) (w : World) : Prop :=
  ∀ i account, w.currentIndex = some i → w.accounts[i]? = some account →
    ∃ earlier login later, history = earlier ++ login :: later ∧ Admits i account login ∧
      ∀ move ∈ later, move.post.currentIndex = some i

/-- No call of the history gives the password of this account. -/
def NeverPresented (history : List Move) (account : Account) : Prop :=
  ∀ move ∈ history, ∀ name password, move.label.1 = .newAccount name password →
    account.name = name.bytes → cstr account.password ≠ password.bytes

/-- A call that neither changes nor returns the balance at a place. -/
def Untouched (i : Nat) (move : Move) : Prop :=
  move.post.balanceAt i = move.pre.balanceAt i ∧
    (move.label.1.IsMoney ∨ move.label.1 = .myInquiry → move.pre.currentIndex ≠ some i)

/-- What authentication promises in a state with this history. -/
structure Authenticated (history : List Move) (w : World) : Prop where
  opened : SessionOpened history w
  protects : ∀ i account, w.accounts[i]? = some account → NeverPresented history account →
    ∀ move ∈ history, Untouched i move

/-- A call for an account of the list other than the current one gives its password. -/
def GivesPassword (move : Move) : Prop :=
  ∀ name password, move.label.1 = .newAccount name password →
    ∀ i account, move.pre.accounts[i]? = some account → account.name = name.bytes →
      move.pre.currentIndex ≠ some i → cstr account.password = password.bytes

theorem identity_at {i : Nat} {account : Account} (prefixed : w.identities <+: w'.identities)
    (known : w.accounts[i]? = some account) :
    ∃ account', w'.accounts[i]? = some account' ∧ account'.name = account.name ∧
      account'.password = account.password := by
  obtain ⟨account', found, pair⟩ := kept_of_map_prefix prefixed known
  obtain ⟨name, password⟩ := Prod.mk.inj pair
  exact ⟨account', found, name, password⟩

theorem SessionOpened.keep {label : Ecall × Returned} (opened : SessionOpened history w)
    (current : w'.currentIndex = w.currentIndex) (identities : w'.identities = w.identities) :
    SessionOpened (history ++ [⟨w, label, w'⟩]) w' := by
  intro i account here known
  have prefixed : w'.identities <+: w.identities := by rw [identities]
  obtain ⟨old, found, name, password⟩ := identity_at prefixed known
  obtain ⟨earlier, login, later, rfl, ⟨n, p, made, named, given, made_current⟩, since⟩ :=
    opened i old (current ▸ here) found
  refine ⟨earlier, login, later ++ [⟨w, label, w'⟩], by simp, ?_, ?_⟩
  · exact ⟨n, p, made, name ▸ named, password ▸ given, made_current⟩
  · intro move member
    rcases List.mem_append.mp member with old | new
    · exact since move old
    · rw [List.mem_singleton.mp new]
      exact here

theorem SessionOpened.login {name password : CString} {i : Nat} {account : Account}
    (found : w'.accounts[i]? = some account) (current : w'.currentIndex = some i)
    (named : account.name = name.bytes) (given : cstr account.password = password.bytes) :
    SessionOpened (history ++ [⟨w, (.newAccount name password, .result .processSuccess), w'⟩])
      w' := by
  intro j other here known
  obtain rfl := Option.some.inj (current.symm.trans here)
  obtain rfl := Option.some.inj (found.symm.trans known)
  refine ⟨history, _, [], rfl, ⟨name, password, rfl, named, given, current⟩, ?_⟩
  intro move member
  cases member

/-- One step keeps the session opened when it gives the password it has to give. -/
theorem SessionOpened.step (wf : WellFormed w manager) {label : Ecall × Returned}
    (running : label.1 ≠ .initManager) (step : EcallStep sgx w label w')
    (gives : GivesPassword ⟨w, label, w'⟩) (opened : SessionOpened history w) :
    SessionOpened (history ++ [⟨w, label, w'⟩]) w' := by
  obtain ⟨call, returned⟩ := label
  have asked (asked : call.IsMoney ∨ call = .myInquiry) :
      SessionOpened (history ++ [⟨w, (call, returned), w'⟩]) w' := by
    obtain ⟨current, identities⟩ := asked_keeps sgx wf asked step
    exact opened.keep current identities
  cases call with
  | initManager => exact absurd rfl running
  | newAccount name password =>
      obtain ⟨result, inner, rfl⟩ := run_map_ok.mp step
      rcases newAccount_cases sgx wf inner with
        ⟨ptr, account, member, known, named, rfl, rfl⟩ | ⟨_, rfl, store⟩
      · have found := wf.getElem? member known
        have same := select_accounts wf.present ptr
        have current := currentIndex_eq (select_wellFormed wf member).present rfl
        by_cases accepted : password.bytes = cstr account.password
        · rw [if_pos accepted]
          exact .login (same ▸ found) current named accepted.symm
        · -- the password is wrong, so the account was already the current one
          have already : w.currentIndex = some (manager.accountList.idxOf ptr) := by
            by_contra other
            exact accepted (gives name password rfl _ account found named other).symm
          apply opened.keep (current.trans already.symm)
          rw [World.identities, World.identities, same]
      · have enrolled := enroll_wellFormed (Account.newAccount name.bytes password.bytes) wf
        obtain ⟨heap, manager'⟩ :=
          accountListStoreStorage_frame sgx enrolled.present enrolled.valid store
        have ledger := (ledger_of_frame heap manager').trans (enroll_ledger _ wf)
        have current : w'.currentIndex = some w.accounts.length := by
          have selected := congrArg Ledger.selected ledger
          simpa [World.ledger] using selected
        have found : w'.accounts[w.accounts.length]? =
            some (Account.newAccount name.bytes password.bytes) := by
          rw [accounts_of_frame heap manager', enroll_accounts _ wf]
          exact List.getElem?_concat_length
        exact .login found current rfl (password.cstr_bytes)
  | myDeposit amount => exact asked (.inl trivial)
  | myWithdraw amount => exact asked (.inl trivial)
  | myInquiry => exact asked (.inr rfl)

/-- In a run that gives every password it has to give, the session is always opened. -/
theorem sessionOpened_run (wf : WellFormed start manager) (nobody : start.currentIndex = none)
    (running : ∀ move ∈ history, move.label.1 ≠ .initManager)
    (gives : ∀ move ∈ history, GivesPassword move) (run : EcallRun sgx start history w) :
    SessionOpened history w := by
  have both : (∃ manager, WellFormed w manager) ∧ SessionOpened history w := by
    induction run with
    | nil =>
        refine ⟨⟨manager, wf⟩, fun i account current _ => ?_⟩
        rw [nobody] at current
        cases current
    | @snoc history before after label _ last ih =>
        obtain ⟨⟨manager', wf'⟩, opened⟩ :=
          ih (fun move member => running move (List.mem_append_left _ member))
            (fun move member => gives move (List.mem_append_left _ member))
        have newest : (⟨before, label, after⟩ : Move) ∈ history ++ [⟨before, label, after⟩] :=
          List.mem_append_right _ (List.mem_singleton_self _)
        obtain ⟨manager'', _, wf'', _⟩ := ecall_refines sgx wf' (running _ newest) last
        exact ⟨⟨manager'', wf''⟩, opened.step sgx wf' (running _ newest) last (gives _ newest)⟩
  exact both.2

theorem untouched_run (wf : WellFormed start manager) (nobody : start.currentIndex = none)
    (running : ∀ move ∈ history, move.label.1 ≠ .initManager)
    (gives : ∀ move ∈ history, GivesPassword move) (run : EcallRun sgx start history w)
    {i : Nat} {account : Account} (known : w.accounts[i]? = some account)
    (never : NeverPresented history account) {move : Move} (member : move ∈ history) :
    Untouched i move := by
  obtain ⟨step, earlier, later, rfl, first, second⟩ := run.of_mem member
  have opened : SessionOpened earlier move.pre :=
    sessionOpened_run sgx wf nobody (fun m old => running m (List.mem_append_left _ old))
      (fun m old => gives m (List.mem_append_left _ old)) first
  obtain ⟨manager', wf'⟩ := wellFormed_run sgx wf first
  have other : move.pre.currentIndex ≠ some i := by
    intro current
    obtain ⟨old, _, found⟩ := current_known wf' current
    have rest : EcallRun sgx move.pre ([move] ++ later) w := (Run.nil.snoc step).append second
    have grown : move.pre.identities <+: w.identities :=
      identities_grow sgx wf' (fun m new => running m (List.mem_append_right _ new)) rest
    obtain ⟨same, at_end, name, password⟩ := identity_at grown found
    obtain rfl := Option.some.inj (known.symm.trans at_end)
    obtain ⟨_, login, _, rfl, ⟨n, p, made, named, given, _⟩, _⟩ := opened i old current found
    refine never login ?_ n p (congrArg Prod.fst made) (name.trans named) (password ▸ given)
    simp
  have exact := (ecall_exact sgx wf' (running move member) step).moves i
  rw [moved, if_neg other, add_zero] at exact
  exact ⟨Int.ofNat_inj.mp exact, fun _ => other⟩

private theorem split_last {earlier later : List Move} {login newest : Move}
    (whole : history ++ [newest] = earlier ++ login :: later) :
    login = newest ∨
      ∃ later', later = later' ++ [newest] ∧ history = earlier ++ login :: later' := by
  rcases List.eq_nil_or_concat later with rfl | ⟨later', last, rfl⟩
  · obtain ⟨_, final⟩ := List.append_inj' whole rfl
    exact .inl (List.singleton_inj.mp final).symm
  · rw [List.concat_eq_append, ← List.cons_append, ← List.append_assoc] at whole
    obtain ⟨front, final⟩ := List.append_inj' whole rfl
    rw [List.singleton_inj.mp final]
    exact .inr ⟨later', List.concat_eq_append .., front⟩

private theorem current_of_since {earlier later : List Move} {login : Move} {i : Nat}
    (run : EcallRun sgx start (earlier ++ login :: later) w)
    (there : login.post.currentIndex = some i)
    (since : ∀ move ∈ later, move.post.currentIndex = some i) : w.currentIndex = some i := by
  rcases List.eq_nil_or_concat later with rfl | ⟨later', last, rfl⟩
  · rwa [run.last_post] at there
  · have still := since last (by simp)
    rw [List.concat_eq_append, ← List.cons_append, ← List.append_assoc] at run
    rwa [run.last_post] at still

theorem gives_of_opened (wf : WellFormed w manager)
    (distinct : (w.accounts.map Account.name).Nodup) {label : Ecall × Returned}
    (run : EcallRun sgx start history w) (step : EcallStep sgx w label w')
    (opened : SessionOpened (history ++ [⟨w, label, w'⟩]) w') : GivesPassword ⟨w, label, w'⟩ := by
  rintro name password made i account found named other
  by_contra wrong
  obtain ⟨call, returned⟩ := label
  obtain rfl : call = .newAccount name password := made
  obtain ⟨result, inner, rfl⟩ := run_map_ok.mp step
  rcases newAccount_cases sgx wf inner with
    ⟨ptr, account', member, known, named', rfl, rfl⟩ | ⟨fresh, _, _⟩
  · have found' := wf.getElem? member known
    obtain rfl := index_unique distinct found found' (named.trans named'.symm)
    obtain rfl := Option.some.inj (found.symm.trans found')
    obtain ⟨earlier, login, later, whole, admits, since⟩ := opened _ account
      (currentIndex_eq (select_wellFormed wf member).present rfl)
      ((select_accounts wf.present ptr).symm ▸ found)
    obtain ⟨n, p, success, _, _, there⟩ := admits
    rcases split_last whole with rfl | ⟨later', rfl, rfl⟩
    · -- the failed call itself would have to be the login
      have label := congrArg Prod.snd success
      simp only [if_neg (Ne.symm wrong)] at label
      cases label
    · -- an earlier login keeps the account current up to the failed call
      exact other (current_of_since sgx run there
        fun move member => since move (List.mem_append_left _ member))
  · exact fresh account (List.mem_of_getElem? found) named

/-- Authentication holds in every state of a run exactly when every call of the run
gives the password it has to give. -/
theorem authenticated_iff {answer : Returned}
    (opening : EcallStep sgx before (.initManager, answer) start)
    (distinct : (start.accounts.map Account.name).Nodup)
    (running : ∀ move ∈ history, move.label.1 ≠ .initManager)
    (run : EcallRun sgx start history w) :
    (∀ earlier state, earlier <+: history → EcallRun sgx start earlier state →
        Authenticated earlier state) ↔
      ∀ move ∈ history, GivesPassword move := by
  obtain ⟨⟨⟨manager, wf⟩, _⟩, nobody⟩ := initManager_ready sgx opening
  constructor
  · intro always move member
    obtain ⟨step, earlier, later, rfl, first, second⟩ := run.of_mem member
    obtain ⟨manager', wf'⟩ := wellFormed_run sgx wf first
    have distinct' := names_nodup sgx wf distinct
      (fun m old => running m (List.mem_append_left _ old)) first
    have there := always (earlier ++ [move]) move.post ⟨later, by simp⟩ (first.snoc step)
    exact gives_of_opened sgx wf' distinct' first step there.opened
  · intro gives earlier state prefixed there
    have running' := fun move old => running move (prefixed.subset old)
    have gives' := fun move old => gives move (prefixed.subset old)
    refine ⟨sessionOpened_run sgx wf nobody running' gives' there, ?_⟩
    intro i account known never move member
    exact untouched_run sgx wf nobody running' gives' there known never member

/-- The call gives the password of every account of its name, whether it is current or not. -/
def Ecall.Gives (accounts : List Account) : Ecall → Prop
  | .newAccount name password =>
      ∀ account ∈ accounts, account.name = name.bytes → cstr account.password = password.bytes
  | _ => True

instance decidableGives (accounts : List Account) (call : Ecall) :
    Decidable (call.Gives accounts) :=
  match call with
  | .newAccount .. => inferInstanceAs (Decidable (∀ _ ∈ _, _ → _))
  | .initManager => .isTrue trivial
  | .myDeposit _ => .isTrue trivial
  | .myWithdraw _ => .isTrue trivial
  | .myInquiry => .isTrue trivial

theorem givesPassword_of_gives {move : Move} (gives : move.label.1.Gives move.pre.accounts) :
    GivesPassword move := by
  intro name password made i account found named _
  rw [made] at gives
  exact gives account (List.mem_of_getElem? found) named

/-- Two new owners come and go over the saved account, whose password nobody gives: its
balance stays, whatever the others pay in and out. -/
theorem authenticated_session : ∃ history w, EcallRun clearSealing savedBank history w ∧
    history.map (·.label.2) = [.result .processSuccess, .value 7, .result .processSuccess,
      .result .processSuccess, .value 5] ∧
      Authenticated history w ∧ NeverPresented history savedAccount ∧
        ∀ move ∈ history, Untouched 0 move := by
  let owner : Ecall := .newAccount ⟨ascii "b", by decide⟩ ⟨ascii "q", by decide⟩
  let other : Ecall := .newAccount ⟨ascii "c", by decide⟩ ⟨ascii "r", by decide⟩
  have evaluated : (ecallTrace clearSealing [owner, .myDeposit 7, other, owner, .myWithdraw 2]
      savedBank).map (fun traced => (traced.1.map (·.label.2), traced.2.accounts[0]?,
        decide (∀ move ∈ traced.1, move.label.1.Gives move.pre.accounts))) =
      .ok ([.result .processSuccess, .value 7, .result .processSuccess, .result .processSuccess,
        .value 5], some savedAccount, true) := by
    decide +kernel
  obtain ⟨⟨history, w⟩, traced, facts⟩ := map_ok evaluated
  obtain ⟨returned, known, checked⟩ : history.map (·.label.2) = _ ∧ w.accounts[0]? = _ ∧ _ := by
    simpa only [Prod.mk.injEq] using facts
  obtain ⟨run, made⟩ := ecallTrace_run clearSealing traced
  have running : ∀ move ∈ history, move.label.1 ≠ .initManager :=
    made_all (· ≠ .initManager) made (by decide)
  have gives : ∀ move ∈ history, GivesPassword move :=
    fun move member => givesPassword_of_gives (of_decide_eq_true checked move member)
  have always :=
    (authenticated_iff clearSealing savedBank_opening (by decide) running run).mpr gives
  have authenticated := always _ _ (List.prefix_refl _) run
  have never : NeverPresented history savedAccount := by
    intro move member name password same named
    have foreign := made_all
      (fun call => call = owner ∨ call = other ∨ ∀ name password, call ≠ .newAccount name password)
      made (by simp [owner]) move member
    rw [same] at foreign
    rcases foreign with isOwner | isOther | neither
    · obtain ⟨rfl, rfl⟩ := Ecall.newAccount.inj isOwner
      exact absurd named (by decide)
    · obtain ⟨rfl, rfl⟩ := Ecall.newAccount.inj isOther
      exact absurd named (by decide)
    · exact absurd rfl (neither name password)
  exact ⟨history, w, run, returned, authenticated, never,
    authenticated.protects 0 savedAccount known never⟩

/-- A login with the wrong password selects the saved account all the same, and the
inquiry behind it returns its balance. -/
theorem wrong_password_session : ∃ before answer start history w,
    EcallStep clearSealing before (.initManager, answer) start ∧
      (start.accounts.map Account.name).Nodup ∧
      (∀ move ∈ history, move.label.1 ≠ .initManager) ∧ EcallRun clearSealing start history w ∧
      ¬ Authenticated history w := by
  let refused : World := { savedBank with
    dealManager := some { DealManager.new with currentAccount := some 0, accountList := [0] } }
  let wrong : Move := ⟨savedBank, (.newAccount ⟨ascii "a", by decide⟩ ⟨ascii "x", by decide⟩,
    .result .accountSetFail), refused⟩
  let inquiry : Move := ⟨refused, (.myInquiry, .value 100), refused⟩
  have login : EcallStep clearSealing wrong.pre wrong.label wrong.post := by decide +kernel
  have asked : EcallStep clearSealing inquiry.pre inquiry.label inquiry.post := by decide +kernel
  have run : EcallRun clearSealing savedBank [wrong, inquiry] refused :=
    (Run.nil.snoc login).snoc asked
  refine ⟨_, _, savedBank, [wrong, inquiry], refused, savedBank_opening, by decide, by decide, run,
    ?_⟩
  intro authenticated
  have never : NeverPresented [wrong, inquiry] savedAccount := by
    intro move member name password made named
    rcases List.mem_pair.mp member with rfl | rfl
    · obtain ⟨rfl, rfl⟩ := Ecall.newAccount.inj made
      decide
    · cases made
  have untouched := authenticated.protects 0 savedAccount (by decide) never inquiry (by simp)
  exact untouched.2 (.inr rfl) (by decide)

end SeccapBank
