import Mathlib.Logic.Function.Basic
import Mathlib.Data.List.Basic

set_option autoImplicit false

/- Errands on a store with one cell for each owner: each reads and writes the cell of its
owner only, so that the errands of one owner do not notice those of the others. -/
namespace Keyed

variable {ε α γ ρ : Type} [DecidableEq α] {owner : ε → α} {visit : ε → γ → Option (ρ × γ)}

/-- Errands one after the other, with their results and the store they leave. -/
def errands (owner : ε → α) (visit : ε → γ → Option (ρ × γ)) :
    List ε → (α → γ) → Option (List ρ × (α → γ))
  | [], cells => some ([], cells)
  | errand :: rest, cells => (visit errand (cells (owner errand))).bind fun first =>
      (errands owner visit rest (Function.update cells (owner errand) first.2)).map fun behind =>
        (first.1 :: behind.1, behind.2)

variable {list list' : List ε} {errand : ε} {cells cells' : α → γ} {results : List ρ}

theorem errands_cons : errands owner visit (errand :: list) cells = some (results, cells') ↔
    ∃ first cell rest, visit errand (cells (owner errand)) = some (first, cell) ∧
      errands owner visit list (Function.update cells (owner errand) cell) =
        some (rest, cells') ∧ results = first :: rest := by
  rw [errands, Option.bind_eq_some_iff]
  constructor
  · rintro ⟨⟨first, cell⟩, here, later⟩
    obtain ⟨⟨rest, final⟩, behind, same⟩ := Option.map_eq_some_iff.mp later
    cases same
    exact ⟨first, cell, rest, here, behind, rfl⟩
  · rintro ⟨first, cell, rest, here, behind, rfl⟩
    exact ⟨(first, cell), here, Option.map_eq_some_iff.mpr ⟨_, behind, rfl⟩⟩

/-- The errands of one owner, in their order. -/
def ownedBy (owner : ε → α) (a : α) (list : List ε) : List ε :=
  list.filter fun errand => owner errand = a

/-- The results of one owner, in their order. -/
def toldTo (owner : ε → α) (a : α) (list : List ε) (results : List ρ) : List ρ :=
  ((list.zip results).filter fun one => owner one.1 = a).map Prod.snd

theorem ownedBy_own {a : α} (own : owner errand = a) :
    ownedBy owner a (errand :: list) = errand :: ownedBy owner a list := by
  simp [ownedBy, own]

theorem ownedBy_other {a : α} (other : owner errand ≠ a) :
    ownedBy owner a (errand :: list) = ownedBy owner a list := by
  simp [ownedBy, other]

theorem ownedBy_ownedBy (a : α) (list : List ε) :
    ownedBy owner a (ownedBy owner a list) = ownedBy owner a list := by
  simp [ownedBy]

theorem ownedBy_swap {other : ε} (apart : owner errand ≠ owner other) (a : α) (list : List ε) :
    ownedBy owner a (errand :: other :: list) = ownedBy owner a (other :: errand :: list) := by
  by_cases own : owner errand = a
  · have foreign : owner other ≠ a := fun same => apart (own.trans same.symm)
    rw [ownedBy_own own, ownedBy_other foreign, ownedBy_other foreign, ownedBy_own own]
  · simp [ownedBy, List.filter_cons, own]

theorem toldTo_own {a : α} {first : ρ} (own : owner errand = a) :
    toldTo owner a (errand :: list) (first :: results) = first :: toldTo owner a list results := by
  simp [toldTo, own]

theorem toldTo_other {a : α} {first : ρ} (other : owner errand ≠ a) :
    toldTo owner a (errand :: list) (first :: results) = toldTo owner a list results := by
  simp [toldTo, other]

theorem toldTo_map {τ : Type} (f : ρ → τ) (a : α) (list : List ε) (results : List ρ) :
    toldTo owner a list (results.map f) = (toldTo owner a list results).map f := by
  simp [toldTo, List.zip_map_right, List.filter_map, Function.comp_def]

/-- Without the errands of all others, and whatever their cells hold, an owner has the same
results and leaves the same cell. -/
theorem errands_alone {a : α} {others : α → γ} (same : others a = cells a)
    (ran : errands owner visit list cells = some (results, cells')) :
    errands owner visit (ownedBy owner a list) others =
      some (toldTo owner a list results, Function.update others a (cells' a)) := by
  induction list generalizing cells others results with
  | nil =>
      cases ran
      rw [← same, Function.update_eq_self]
      rfl
  | cons errand list ih =>
      obtain ⟨first, cell, rest, here, behind, rfl⟩ := errands_cons.mp ran
      by_cases own : owner errand = a
      · have visited : visit errand (others (owner errand)) = some (first, cell) := by
          rwa [own, same, ← own]
        have mine : Function.update others a cell a =
            Function.update cells (owner errand) cell a := by simp [own]
        have later := ih mine behind
        rw [Function.update_idem] at later
        rw [ownedBy_own own, toldTo_own own]
        exact errands_cons.mpr ⟨first, cell, _, visited, own ▸ later, rfl⟩
      · rw [ownedBy_other own, toldTo_other own]
        exact ih (by rw [same, Function.update_of_ne (Ne.symm own)]) behind

/-- Errands that can be run for each owner alone can be run together. -/
theorem errands_together (alone : ∀ a, ∃ results cells',
    errands owner visit (ownedBy owner a list) cells =
      some (results, cells')) :
    ∃ results cells', errands owner visit list cells = some (results, cells') := by
  induction list generalizing cells with
  | nil => exact ⟨[], cells, rfl⟩
  | cons errand list ih =>
      obtain ⟨_, cells', own⟩ := alone (owner errand)
      rw [ownedBy_own rfl] at own
      obtain ⟨first, cell, _, here, behind, rfl⟩ := errands_cons.mp own
      have separate : ∀ a, ∃ results cells', errands owner visit (ownedBy owner a list)
          (Function.update cells (owner errand) cell) = some (results, cells') := by
        intro a
        by_cases same : owner errand = a
        · exact same ▸ ⟨_, _, behind⟩
        · obtain ⟨_, _, other⟩ := alone a
          rw [ownedBy_other same] at other
          have kept := errands_alone (Function.update_of_ne (Ne.symm same) cell cells) other
          rw [ownedBy_ownedBy] at kept
          exact ⟨_, _, kept⟩
      obtain ⟨rest, final, later⟩ := ih separate
      exact ⟨_, final, errands_cons.mpr ⟨first, cell, rest, here, later, rfl⟩⟩

/-- Errands can be reordered as long as each owner keeps the own order: everybody has the same
results, and the store is the same in the end. -/
theorem errands_any_order (same : ∀ a, ownedBy owner a list = ownedBy owner a list')
    (ran : errands owner visit list cells = some (results, cells')) :
    ∃ results', errands owner visit list' cells = some (results', cells') ∧
      ∀ a, toldTo owner a list' results' = toldTo owner a list results := by
  have alone (a : α) := errands_alone (a := a) rfl ran
  simp only [same] at alone
  obtain ⟨results', final, ran'⟩ := errands_together fun a => ⟨_, _, alone a⟩
  have equal (a : α) :=
    Prod.mk.inj (Option.some.inj ((errands_alone rfl ran').symm.trans (alone a)))
  obtain rfl : final = cells' := by
    funext a
    simpa using congrFun (equal a).2 a
  exact ⟨results', ran', fun a => (equal a).1⟩

end Keyed
