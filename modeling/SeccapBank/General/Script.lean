import Mathlib.Data.Option.Basic

set_option autoImplicit false

/- Scripts: what is asked of a machine, where the next question may depend on the answers, and
runs of scripts on machines that simulate each other. -/
namespace Scripts

variable {ι ο ρ τ σ σ' : Type}

inductive Script (ι ο ρ : Type) where
  | done (result : Option ρ)
  | ask (op : ι) (next : ο → Script ι ο ρ)

/-- The result, and the state that the machine is left in. -/
def Script.run (step : σ → ι → Option (ο × σ)) : Script ι ο ρ → σ → Option (ρ × σ)
  | .done result, s => result.map fun r => (r, s)
  | .ask op next, s => (step s op).bind fun told => (next told.1).run step told.2

/-- One script behind the other. -/
def Script.bind : Script ι ο ρ → (ρ → Script ι ο τ) → Script ι ο τ
  | .done result, behind => result.elim (.done none) behind
  | .ask op next, behind => .ask op fun told => (next told).bind behind

/-- Whatever is answered, everything that is asked satisfies `Q`. -/
def Script.All (Q : ι → Prop) : Script ι ο ρ → Prop
  | .done _ => True
  | .ask op next => Q op ∧ ∀ told, (next told).All Q

/-- What is asked at once, if anything is, satisfies `Q`. -/
def Script.Starts (Q : ι → Prop) : Script ι ο ρ → Prop
  | .done _ => True
  | .ask op _ => Q op

/-- A list of questions, with all their answers. -/
def asks : List ι → Script ι ο (List ο)
  | [] => .done (some [])
  | op :: ops => .ask op fun told => (asks ops).bind fun rest => .done (some (told :: rest))

/-- Scripts one after the other. -/
def runs (step : σ → ι → Option (ο × σ)) : List (Script ι ο ρ) → σ → Option (List ρ × σ)
  | [], s => some ([], s)
  | script :: scripts, s => (script.run step s).bind fun first =>
      (runs step scripts first.2).map fun rest => (first.1 :: rest.1, rest.2)

variable {step : σ → ι → Option (ο × σ)} {step' : σ' → ι → Option (ο × σ')} {Q : ι → Prop}
  {P : σ → Prop} {f : σ → σ'} {script : Script ι ο ρ} {scripts : List (Script ι ο ρ)}
  {behind : ρ → Script ι ο τ} {s s' : σ}

theorem run_bind (script : Script ι ο ρ) (behind : ρ → Script ι ο τ) (s : σ) :
    (script.bind behind).run step s =
      (script.run step s).bind fun first => (behind first.1).run step first.2 := by
  induction script generalizing s with
  | done result => cases result <;> rfl
  | ask op next ih =>
      rw [Script.bind, Script.run, Script.run, Option.bind_assoc]
      congr 1
      funext told
      exact ih told.1 told.2

theorem Script.All.bind (here : script.All Q) (later : ∀ r, (behind r).All Q) :
    (script.bind behind).All Q := by
  induction script with
  | done result =>
      cases result with
      | none => trivial
      | some r => exact later r
  | ask op next ih => exact ⟨here.1, fun told => ih told (here.2 told)⟩

theorem Script.all_true (script : Script ι ο ρ) : script.All fun _ => True := by
  induction script with
  | done => trivial
  | ask op next ih => exact ⟨trivial, ih⟩

theorem asks_all {ops : List ι} (all : ∀ op ∈ ops, Q op) : (asks ops : Script ι ο _).All Q := by
  induction ops with
  | nil => trivial
  | cons op ops ih =>
      obtain ⟨here, later⟩ := List.forall_mem_cons.mp all
      exact ⟨here, fun _ => (ih later).bind fun _ => trivial⟩

theorem runs_cons {results : List ρ} :
    runs step (script :: scripts) s = some (results, s') ↔ ∃ first middle rest,
      script.run step s = some (first, middle) ∧ runs step scripts middle = some (rest, s') ∧
        results = first :: rest := by
  rw [runs, Option.bind_eq_some_iff]
  constructor
  · rintro ⟨⟨first, middle⟩, here, later⟩
    obtain ⟨⟨rest, final⟩, onwards, same⟩ := Option.map_eq_some_iff.mp later
    cases same
    exact ⟨first, middle, rest, here, onwards, rfl⟩
  · rintro ⟨first, middle, rest, here, onwards, rfl⟩
    exact ⟨(first, middle), here, Option.map_eq_some_iff.mpr ⟨_, onwards, rfl⟩⟩

theorem run_keeps (kept : ∀ {s op told s'}, P s → step s op = some (told, s') → P s')
    (start : P s) {r : ρ} (ran : script.run step s = some (r, s')) : P s' := by
  induction script generalizing s with
  | done result =>
      obtain ⟨_, _, same⟩ := Option.map_eq_some_iff.mp ran
      cases same
      exact start
  | ask op next ih =>
      obtain ⟨⟨told, middle⟩, here, later⟩ := Option.bind_eq_some_iff.mp ran
      exact ih told (kept start here) later

theorem runs_keep (kept : ∀ {s op told s'}, P s → step s op = some (told, s') → P s')
    (start : P s) {results : List ρ} (ran : runs step scripts s = some (results, s')) : P s' := by
  induction scripts generalizing s results with
  | nil =>
      cases ran
      exact start
  | cons script scripts ih =>
      obtain ⟨_, _, _, here, later, _⟩ := runs_cons.mp ran
      exact ih (run_keeps kept start here) later

/-- Where `P` holds, the questions in `Q` have the same answers on the image of the state, and
lead to the image of the next state. -/
structure Simulates (P : σ → Prop) (Q : ι → Prop) (f : σ → σ')
    (step : σ → ι → Option (ο × σ)) (step' : σ' → ι → Option (ο × σ')) : Prop where
  commutes : ∀ {s op}, P s → Q op →
    (step s op).map (fun told => (told.1, f told.2)) = step' (f s) op
  kept : ∀ {s op told s'}, P s → step s op = some (told, s') → P s'

/-- A script has the same result on the image of the state. -/
theorem Simulates.run (sim : Simulates P Q f step step') (asked : script.All Q) (start : P s) :
    (script.run step s).map (fun first => (first.1, f first.2)) = script.run step' (f s) := by
  induction script generalizing s with
  | done result => cases result <;> rfl
  | ask op next ih =>
      rw [Script.run, Script.run, ← sim.commutes start asked.1]
      cases here : step s op with
      | none => rfl
      | some told =>
          rw [Option.bind_some, Option.map_some, Option.bind_some,
            ih told.1 (asked.2 told.1) (sim.kept start here)]

theorem Simulates.runs (sim : Simulates P Q f step step')
    (asked : ∀ script ∈ scripts, script.All Q) (start : P s) :
    (runs step scripts s).map (fun first => (first.1, f first.2)) =
      Scripts.runs step' scripts (f s) := by
  induction scripts generalizing s with
  | nil => rfl
  | cons script scripts ih =>
      obtain ⟨here, later⟩ := List.forall_mem_cons.mp asked
      rw [Scripts.runs, Scripts.runs, ← sim.run here start]
      cases ran : script.run step s with
      | none => rfl
      | some first =>
          rw [Option.map_some, Option.bind_some, Option.bind_some,
            ← ih later (run_keeps sim.kept start ran), Option.map_map, Option.map_map]
          rfl

end Scripts
