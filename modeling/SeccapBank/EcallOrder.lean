import SeccapBank.EnclaveRuns

set_option autoImplicit false

/- The five ecalls in any order: which of them find the pointers that they dereference. -/
namespace SeccapBank

open CStrings Buffers Fallible Runs

variable (sgx : Sgx) {w w' start : World} {manager : DealManager} {call : Ecall}

/-- How far the enclave's two pointers have been set, as the untrusted side can tell from
its calls: `DEAL_MANAGER` is NULL, or only `current_account` is, or neither. -/
inductive Stage where
  | started
  | initialised
  | selected
  deriving DecidableEq

def Stage.after : Stage → Ecall → Stage
  | _, .initManager => .initialised
  | _, .newAccount .. => .selected
  | stage, _ => stage

/-- The stage that the calls made so far lead to. -/
def stageOf (calls : List Ecall) : Stage := calls.foldl Stage.after .started

/-- The calls that find their pointers set, or set them. -/
def Stage.Allows (stage : Stage) (call : Ecall) : Prop :=
  call = .initManager ∨ stage = .initialised ∧ call ≠ .myInquiry ∨ stage = .selected

instance (stage : Stage) (call : Ecall) : Decidable (stage.Allows call) :=
  inferInstanceAs (Decidable (_ ∨ _))

/-- The pointers of this state are those of the stage. -/
def AtStage (w : World) : Stage → Prop
  | .started => w.dealManager = none
  | .initialised => Ready w ∧ w.currentIndex = none
  | .selected => Ready w ∧ w.currentIndex ≠ none

/-- Without a manager, every call but the initialisation dereferences NULL. -/
theorem started_null (absent : w.dealManager = none) (running : call ≠ .initManager) :
    (call.exec sgx).run w = .error .nullPointer := by
  have manager := theManager_run_null absent
  have money {deal : UInt64 → Bank Unit} {amount : UInt64} :
      (ecallMy sgx deal amount).run w = .error .nullPointer := by
    have login : accountLogin.run w = .error .nullPointer := by
      rw [accountLogin, run_bind_of_error manager]
    rw [ecallMy, run_bind_of_error login]
  cases call with
  | initManager => exact absurd rfl running
  | newAccount name password =>
      apply run_map_error.mpr
      rw [ecallNewAccount, run_bind_of_error manager]
  | myDeposit amount => exact run_map_error.mpr money
  | myWithdraw amount => exact run_map_error.mpr money
  | myInquiry =>
      have current : theCurrentAccount.run w = .error .nullPointer := by
        rw [theCurrentAccount, run_bind_of_error manager]
      apply run_map_error.mpr
      rw [ecallMyInquiry, run_bind_of_error current]

theorem initialised_null (wf : WellFormed w manager) (nobody : w.currentIndex = none) :
    (Ecall.myInquiry.exec sgx).run w = .error .nullPointer := by
  have pointed : manager.currentAccount = none := by
    cases current : manager.currentAccount with
    | none => rfl
    | some ptr =>
        rw [currentIndex_eq wf.present current] at nobody
        cases nobody
  apply run_map_error.mpr
  rw [ecallMyInquiry, run_bind_of_error (theCurrentAccount_run_null wf.present pointed)]

/-- The initialisation sets the manager itself, so it finds no NULL. -/
theorem initManager_fault {fault : Fault}
    (failed : (ecallInitManager sgx).run w = .error fault) : fault ≠ .nullPointer := by
  let fresh : World := { w with dealManager := some .new }
  rw [ecallInitManager, run_bind_of_ok (setManager_run .new w)] at failed
  change ((accountListSetting sgx >>= _) : Bank _).run fresh = _ at failed
  rcases run_bind_error.mp failed with setting | ⟨_, w1, _, rest⟩
  · exact accountListSetting_fault sgx (show fresh.dealManager = some .new from rfl) setting
  · cases rest

/-- A call dereferences NULL exactly if the stage of its state does not allow it. -/
theorem stage_null {stage : Stage} (here : AtStage w stage) :
    (call.exec sgx).run w = .error .nullPointer ↔ ¬ stage.Allows call := by
  by_cases opening : call = .initManager
  · subst opening
    have found : ¬ (Ecall.initManager.exec sgx).run w = .error .nullPointer := fun failed =>
      initManager_fault sgx (run_map_error.mp failed) rfl
    exact iff_of_false found (not_not.mpr (.inl rfl))
  · have returns (ready : Ready w) (loggedIn : call = .myInquiry → w.currentIndex ≠ none) :
        ¬ (call.exec sgx).run w = .error .nullPointer := by
      obtain ⟨⟨manager, wf⟩, file⟩ := ready
      obtain ⟨returned, w', step⟩ := ecall_returns sgx wf file opening loggedIn
      intro failed
      cases failed.symm.trans step
    cases stage with
    | started =>
        apply iff_of_true (started_null sgx here opening)
        simp [Stage.Allows, opening]
    | initialised =>
        obtain ⟨ready, nobody⟩ := here
        by_cases inquiry : call = .myInquiry
        · subst inquiry
          obtain ⟨⟨manager, wf⟩, _⟩ := ready
          exact iff_of_true (initialised_null sgx wf nobody) (by decide)
        · exact iff_of_false (returns ready fun asked => absurd asked inquiry)
            (not_not.mpr (.inr (.inl ⟨rfl, inquiry⟩)))
    | selected =>
        obtain ⟨ready, somebody⟩ := here
        exact iff_of_false (returns ready fun _ => somebody) (not_not.mpr (.inr (.inr rfl)))

theorem newAccount_selects (wf : WellFormed w manager) {name password : CString}
    {returned : Returned} (step : EcallStep sgx w (.newAccount name password, returned) w') :
    w'.currentIndex ≠ none := by
  obtain ⟨result, inner, _⟩ := run_map_ok.mp step
  rcases newAccount_cases sgx wf inner with ⟨ptr, _, _, _, _, rfl, _⟩ | ⟨_, _, store⟩
  · rw [currentIndex_eq (w := w.select manager ptr) rfl rfl]
    exact Option.some_ne_none _
  · have enrolled := enroll_wellFormed (Account.newAccount name.bytes password.bytes) wf
    obtain ⟨_, same⟩ := accountListStoreStorage_frame sgx enrolled.present enrolled.valid store
    rw [currentIndex_eq (same.trans enrolled.present) rfl]
    exact Option.some_ne_none _

/-- A call that returns leads to the stage behind it. -/
theorem stage_step {stage : Stage} {returned : Returned} (here : AtStage w stage)
    (step : EcallStep sgx w (call, returned) w') : AtStage w' (stage.after call) := by
  by_cases opening : call = .initManager
  · subst opening
    exact initManager_ready sgx step
  have ready : Ready w := by
    cases stage with
    | started => cases (started_null sgx here opening).symm.trans step
    | initialised => exact here.1
    | selected => exact here.1
  have ready' := ecall_ready sgx ready step
  have kept (asked : call.IsMoney ∨ call = .myInquiry) : AtStage w' stage := by
    obtain ⟨⟨manager, wf⟩, _⟩ := ready
    obtain ⟨session, _⟩ := asked_keeps sgx wf asked step
    cases stage with
    | started => cases (started_null sgx here opening).symm.trans step
    | initialised => exact ⟨ready', session.trans here.2⟩
    | selected => exact ⟨ready', fun nobody => here.2 (session.symm.trans nobody)⟩
  cases call with
  | initManager => exact absurd rfl opening
  | newAccount name password =>
      obtain ⟨⟨manager, wf⟩, _⟩ := ready
      exact ⟨ready', newAccount_selects sgx wf step⟩
  | myDeposit amount => exact kept (.inl trivial)
  | myWithdraw amount => exact kept (.inl trivial)
  | myInquiry => exact kept (.inr rfl)

/-- The call that the untrusted side gets to make behind the calls of a front: they have all
returned. -/
def Made (sgx : Sgx) (start : World) (calls front : List Ecall) (call : Ecall) : Prop :=
  front ++ [call] <+: calls ∧ ∃ traced, ecallTrace sgx front start = .ok traced

section Made

variable {calls front : List Ecall} {next : Ecall} {P : List Ecall → Ecall → Prop}

theorem made_first : Made sgx w (call :: calls) [] next ↔ next = call := by
  constructor
  · rintro ⟨within, _⟩
    exact (List.cons_prefix_cons.mp within).1
  · rintro rfl
    exact ⟨List.cons_prefix_cons.mpr ⟨rfl, List.nil_prefix⟩, _, rfl⟩

theorem made_failed {fault : Fault} (failed : (call.exec sgx).run w = .error fault) :
    (∀ front next, Made sgx w (call :: calls) front next → P front next) ↔ P [] call := by
  constructor
  · intro all
    exact all [] call ((made_first sgx).mpr rfl)
  · intro first front next made
    cases front with
    | nil =>
        obtain rfl := (made_first sgx).mp made
        exact first
    | cons head rest =>
        obtain ⟨within, traced, returned⟩ := made
        obtain ⟨rfl, _⟩ := List.cons_prefix_cons.mp within
        rw [ecallTrace_error sgx failed] at returned
        cases returned

theorem made_later {returned : Returned} (step : EcallStep sgx w (call, returned) w') :
    Made sgx w (call :: calls) (call :: front) next ↔ Made sgx w' calls front next := by
  unfold Made
  rw [List.cons_append, List.cons_prefix_cons, ecallTrace_step sgx step]
  cases ecallTrace sgx front w' <;> simp [Except.map]

theorem made_returned {returned : Returned} (step : EcallStep sgx w (call, returned) w') :
    (∀ front next, Made sgx w (call :: calls) front next → P front next) ↔
      P [] call ∧ ∀ front next, Made sgx w' calls front next → P (call :: front) next := by
  constructor
  · intro all
    refine ⟨all [] call ((made_first sgx).mpr rfl), fun front next made => ?_⟩
    exact all (call :: front) next ((made_later sgx step).mpr made)
  · rintro ⟨first, later⟩ front next made
    cases front with
    | nil =>
        obtain rfl := (made_first sgx).mp made
        exact first
    | cons head rest =>
        obtain ⟨rfl, _⟩ := List.cons_prefix_cons.mp made.1
        exact later rest next ((made_later sgx step).mp made)

theorem trace_fault {returned : Returned} {fault : Fault}
    (step : EcallStep sgx w (call, returned) w') :
    ecallTrace sgx (call :: calls) w = .error fault ↔ ecallTrace sgx calls w' = .error fault := by
  rw [ecallTrace_step sgx step]
  cases ecallTrace sgx calls w' <;> simp [Except.map]

end Made

/-- A trace from a state at a stage meets no NULL exactly if every call that is made is
allowed by the stage that the calls before it lead to. -/
theorem trace_null {stage : Stage} (here : AtStage w stage) (calls : List Ecall) :
    ecallTrace sgx calls w ≠ .error .nullPointer ↔
      ∀ front next, Made sgx w calls front next →
        (front.foldl Stage.after stage).Allows next := by
  induction calls generalizing w stage with
  | nil =>
      apply iff_of_true
      · intro failed
        cases failed
      · rintro front next ⟨within, _⟩
        exact absurd (List.prefix_nil.mp within) (List.append_ne_nil_of_right_ne_nil _ (by simp))
  | cons call calls ih =>
      have now : (call.exec sgx).run w = .error .nullPointer ↔ ¬ stage.Allows call :=
        stage_null sgx here
      cases first : (call.exec sgx).run w with
      | error fault =>
          rw [first] at now
          rw [ecallTrace_error sgx first, made_failed sgx first]
          constructor
          · intro found
            by_contra refused
            cases now.mpr refused
            exact found rfl
          · intro allowed failed
            cases failed
            exact now.mp rfl allowed
      | ok p =>
          have step : EcallStep sgx w (call, p.1) p.2 := first
          have allowed : stage.Allows call := by
            by_contra refused
            cases first.symm.trans (now.mpr refused)
          have behind := ih (stage_step sgx here step)
          rw [Ne, trace_fault sgx step, made_returned sgx step]
          exact ⟨fun found => ⟨allowed, behind.mp found⟩, fun all => behind.mpr all.2⟩

/-- Every call of the list is allowed behind all calls before it. -/
def Orderly : Stage → List Ecall → Prop
  | _, [] => True
  | stage, call :: calls => stage.Allows call ∧ Orderly (stage.after call) calls

instance decidableOrderly : (stage : Stage) → (calls : List Ecall) → Decidable (Orderly stage calls)
  | _, [] => inferInstanceAs (Decidable True)
  | stage, call :: calls =>
      have := decidableOrderly (stage.after call) calls
      inferInstanceAs (Decidable (stage.Allows call ∧ Orderly (stage.after call) calls))

theorem orderly_allows {stage : Stage} {calls front : List Ecall} {next : Ecall}
    (orderly : Orderly stage calls) (within : front ++ [next] <+: calls) :
    (front.foldl Stage.after stage).Allows next := by
  induction front generalizing stage calls with
  | nil =>
      obtain ⟨rest, rfl⟩ := within
      exact orderly.1
  | cons head front ih =>
      obtain ⟨rest, rfl⟩ := within
      exact ih orderly.2 ⟨rest, rfl⟩

/-- An orderly list of calls is safe on every file and with every sealing. -/
theorem orderly_safe (fresh : start.dealManager = none) {calls : List Ecall}
    (orderly : Orderly .started calls) : ecallTrace sgx calls start ≠ .error .nullPointer := by
  have here : AtStage start .started := fresh
  rw [trace_null sgx here]
  exact fun front next made => orderly_allows orderly made.1

/-- From a fresh process, no call of a list dereferences NULL exactly if each that is made is
the initialisation or has one before it, and an inquiry a login since the last one. -/
theorem ecalls_safe_iff (fresh : start.dealManager = none) (calls : List Ecall) :
    ecallTrace sgx calls start ≠ .error .nullPointer ↔
      ∀ front next, Made sgx start calls front next → (stageOf front).Allows next := by
  have here : AtStage start .started := fresh
  exact trace_null sgx here calls

theorem ecalls_safe_inquiry :
    ecallTrace clearSealing [.initManager, ownerLogin, .myInquiry] (.boot []) ≠
      .error .nullPointer := by
  apply (ecalls_safe_iff clearSealing rfl _).mpr
  intro front next made
  exact orderly_allows (by decide) made.1

/-- An inquiry before any login, and a deposit before the initialisation, dereference NULL. -/
theorem ecalls_unsafe :
    ecallTrace clearSealing [.initManager, .myInquiry] (.boot []) = .error .nullPointer ∧
      ecallTrace clearSealing [.myDeposit 5] (.boot []) = .error .nullPointer := ⟨rfl, rfl⟩

end SeccapBank
