import Mathlib

set_option autoImplicit false

/- Finite runs of a labelled step relation, each recorded with the states on
both sides of every step. Nothing below depends on what the states are. -/
namespace Runs

variable {σ ε : Type}

/-- One step of a run, with the states on both sides of it. -/
structure Transition (σ ε : Type) where
  pre : σ
  label : ε
  post : σ

/-- The steps recorded in the history lead from the first state to the last. -/
inductive Run (step : σ → ε → σ → Prop) (start : σ) :
    List (Transition σ ε) → σ → Prop where
  | nil : Run step start [] start
  | snoc {history : List (Transition σ ε)} {before after : σ} {label : ε}
      (run : Run step start history before) (last : step before label after) :
      Run step start (history ++ [⟨before, label, after⟩]) after

variable {step : σ → ε → σ → Prop} {start finish : σ} {history : List (Transition σ ε)}

/-- What holds at first and is kept by every step holds of every reached state. -/
theorem Run.invariant (run : Run step start history finish) (Inv : σ → Prop)
    (init : Inv start)
    (keeps : ∀ before label after, Inv before → step before label after → Inv after) :
    Inv finish := by
  induction run with
  | nil => exact init
  | snoc _ last ih => exact keeps _ _ _ ih last

/-- A run may be continued by another. -/
theorem Run.append {middle : σ} {back : List (Transition σ ε)}
    (first : Run step start history middle) (second : Run step middle back finish) :
    Run step start (history ++ back) finish := by
  induction second with
  | nil => simpa using first
  | snoc _ last ih =>
      rw [← List.append_assoc]
      exact ih.snoc last

/-- A run splits at every point of its history. -/
theorem Run.split {front back : List (Transition σ ε)}
    (run : Run step start (front ++ back) finish) :
    ∃ middle, Run step start front middle ∧ Run step middle back finish := by
  induction back using List.reverseRecOn generalizing finish with
  | nil => exact ⟨finish, by simpa using run, .nil⟩
  | append_singleton back move ih =>
      rw [← List.append_assoc] at run
      generalize whole : front ++ back ++ [move] = entire at run
      cases run with
      | nil => simp at whole
      | snoc run last =>
          obtain ⟨same, final⟩ := List.append_inj' whole rfl
          cases List.singleton_inj.mp final
          subst same
          obtain ⟨middle, first, second⟩ := ih run
          exact ⟨middle, first, second.snoc last⟩

theorem Run.of_nil (run : Run step start [] finish) : start = finish := by
  generalize whole : [] = entire at run
  cases run with
  | nil => rfl
  | snoc _ _ => simp at whole

theorem Run.of_single {move : Transition σ ε} (run : Run step start [move] finish) :
    start = move.pre ∧ step move.pre move.label move.post ∧ move.post = finish := by
  generalize whole : [move] = entire at run
  cases run with
  | nil => cases whole
  | snoc run last =>
      obtain ⟨empty, final⟩ := List.append_inj' (show [] ++ [move] = _ from whole) rfl
      subst empty
      cases List.singleton_inj.mp final
      exact ⟨run.of_nil, last, rfl⟩

/-- Every recorded step is a step, and cuts the run into what led to it and what
followed it. -/
theorem Run.cut {earlier later : List (Transition σ ε)} {move : Transition σ ε}
    (run : Run step start (earlier ++ move :: later) finish) :
    step move.pre move.label move.post ∧ Run step start earlier move.pre ∧
      Run step move.post later finish := by
  obtain ⟨before, first, rest⟩ := run.split
  have whole : Run step before ([move] ++ later) finish := rest
  obtain ⟨after, single, last⟩ := whole.split
  obtain ⟨rfl, taken, rfl⟩ := single.of_single
  exact ⟨taken, first, last⟩

theorem Run.last_post {move : Transition σ ε} (run : Run step start (history ++ [move]) finish) :
    move.post = finish :=
  run.cut.2.2.of_nil

theorem Run.of_mem (run : Run step start history finish) {move : Transition σ ε}
    (member : move ∈ history) :
    step move.pre move.label move.post ∧ ∃ earlier later, history = earlier ++ move :: later ∧
      Run step start earlier move.pre ∧ Run step move.post later finish := by
  obtain ⟨earlier, later, rfl⟩ := List.append_of_mem member
  exact ⟨run.cut.1, earlier, later, rfl, run.cut.2⟩

/-- A reflexive and transitive relation kept by each step relates the ends. -/
theorem Run.relates {R : σ → σ → Prop} (run : Run step start history finish)
    (refl : ∀ state, R state state) (trans : ∀ a b c, R a b → R b c → R a c)
    (keeps : ∀ move ∈ history, R move.pre move.post) : R start finish := by
  induction run with
  | nil => exact refl _
  | snoc _ last ih =>
      have final := keeps _ (List.mem_append_right _ (List.mem_singleton_self _))
      exact trans _ _ _ (ih fun move member => keeps move (List.mem_append_left _ member)) final

/-- A step-by-step simulation carries over to whole runs, move for move. -/
theorem Run.simulate {τ δ : Type} {step' : τ → δ → τ → Prop}
    (run : Run step start history finish) (abs : σ → τ) (Match : ε → δ → Prop) (Inv : σ → Prop)
    (init : Inv start)
    (simulates : ∀ move ∈ history, Inv move.pre → step move.pre move.label move.post →
      ∃ label', Match move.label label' ∧ step' (abs move.pre) label' (abs move.post) ∧
        Inv move.post) :
    Inv finish ∧ ∃ history', Run step' (abs start) history' (abs finish) ∧
      List.Forall₂ (fun move move' => Inv move.pre ∧ Match move.label move'.label ∧
        move'.pre = abs move.pre ∧ move'.post = abs move.post) history history' := by
  induction run with
  | nil => exact ⟨init, [], .nil, .nil⟩
  | @snoc history before after label _ last ih =>
      obtain ⟨kept, history', run', related⟩ :=
        ih fun move member => simulates move (List.mem_append_left _ member)
      have newest : (⟨before, label, after⟩ : Transition σ ε) ∈
          history ++ [⟨before, label, after⟩] :=
        List.mem_append_right _ (List.mem_singleton_self _)
      obtain ⟨label', matched, last', inv⟩ := simulates _ newest kept last
      exact ⟨inv, _, run'.snoc last',
        List.rel_append related (.cons ⟨kept, matched, rfl, rfl⟩ .nil)⟩

section Following

/- A step relation against a partial function on an abstraction of its states: what the
function follows is what the runs do. -/
variable {τ : Type} {next : τ → ε → Option τ} {abs : σ → τ} {Inv : σ → Prop} {labels : List ε}
  {t : τ}

/-- Where every step is one of the function, a run is followed by it. -/
theorem Run.followed (run : Run step start history finish) (init : Inv start)
    (sound : ∀ s label s', Inv s → step s label s' → next (abs s) label = some (abs s') ∧ Inv s') :
    Inv finish ∧ (history.map (·.label)).foldlM next (abs start) = some (abs finish) := by
  induction run with
  | nil => exact ⟨init, rfl⟩
  | snoc _ last ih =>
      obtain ⟨before, earlier⟩ := ih
      obtain ⟨newest, after⟩ := sound _ _ _ before last
      refine ⟨after, ?_⟩
      rw [List.map_append, List.foldlM_append, earlier]
      simp [newest]

end Following

end Runs
