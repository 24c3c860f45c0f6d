import Mathlib.Tactic.Common

/-! Runs of a partial step function, and the rules that carry a fact along a run. -/

namespace Machine

variable {S A T B : Type*} {P : S → Prop}

/-- The state a list of actions leads to, or none once one of them is not possible. -/
def exec (step : S → A → Option S) (s : S) (actions : List A) : Option S :=
  actions.foldlM step s

/-- Every action of the list is taken in a state that meets the condition. -/
def Along (step : S → A → Option S) (ok : S → A → Prop) : S → List A → Prop
  | _, [] => True
  | s, a :: rest =>
    ok s a ∧ match step s a with
      | some t => Along step ok t rest
      | none => True

/-- A condition that can be checked at one action can be checked along a list of them. -/
instance decidableAlong (step : S → A → Option S) (ok : S → A → Prop)
    [∀ s a, Decidable (ok s a)] : ∀ s actions, Decidable (Along step ok s actions)
  | _, [] => isTrue trivial
  | s, a :: rest =>
    match reached : step s a with
    | some t =>
      have := decidableAlong step ok t rest
      decidable_of_iff (ok s a ∧ Along step ok t rest) (by simp only [Along, reached])
    | none => decidable_of_iff (ok s a) (by simp only [Along, reached, and_true])

variable {step : S → A → Option S} {ok : S → A → Prop} {s t u : S} {a : A} {before after : List A}

@[simp] theorem exec_nil : exec step s [] = some s := rfl

theorem exec_cons : exec step s (a :: after) = (step s a).bind (exec step · after) := by
  rfl

theorem exec_append :
    exec step s (before ++ after) = (exec step s before).bind (exec step · after) := by
  simp only [exec, List.foldlM_append]
  rfl

/-- A run of two parts passes through a state in between. -/
theorem exec_append_eq_some :
    exec step s (before ++ after) = some t
      ↔ ∃ u, exec step s before = some u ∧ exec step u after = some t := by
  rw [exec_append, Option.bind_eq_some_iff]

/-- A run that starts with one action passes through the state after it. -/
theorem exec_cons_eq_some :
    exec step s (a :: after) = some t ↔ ∃ u, step s a = some u ∧ exec step u after = some t := by
  rw [exec_cons, Option.bind_eq_some_iff]

theorem along_cons (taken : step s a = some t) :
    Along step ok s (a :: after) ↔ ok s a ∧ Along step ok t after := by
  simp only [Along, taken]

/-- Two conditions along a run are their conjunction along it. -/
theorem Along.and {other : S → A → Prop} (holds : Along step ok s before)
    (also : Along step other s before) : Along step (fun s a => ok s a ∧ other s a) s before := by
  induction before generalizing s with
  | nil => trivial
  | cons a rest ih =>
    cases taken : step s a with
    | none =>
      simp only [Along, taken] at holds also ⊢
      exact ⟨⟨holds.1, also.1⟩, trivial⟩
    | some u =>
      rw [along_cons taken] at holds also ⊢
      exact ⟨⟨holds.1, also.1⟩, ih holds.2 also.2⟩

/-- What every step under the condition keeps holds at the end of every run under it. -/
theorem exec_keeps_along (keeps : ∀ s a t, P s → ok s a → step s a = some t → P t) (start : P s)
    (holds : Along step ok s before) (ran : exec step s before = some t) : P t := by
  induction before generalizing s with
  | nil =>
    rw [exec_nil, Option.some.injEq] at ran
    exact ran ▸ start
  | cons a rest ih =>
    obtain ⟨u, taken, onward⟩ := exec_cons_eq_some.mp ran
    rw [along_cons taken] at holds
    exact ih (keeps s a u start holds.1 taken) holds.2 onward

/-- Where every action under the condition can be taken and keeps a fact, every list of actions
under the condition can be run and ends with the fact. -/
theorem exec_total_along (progress : ∀ s a, P s → ok s a → ∃ t, step s a = some t ∧ P t)
    (start : P s) (holds : Along step ok s before) : ∃ t, exec step s before = some t ∧ P t := by
  induction before generalizing s with
  | nil => exact ⟨s, exec_nil, start⟩
  | cons a rest ih =>
    obtain ⟨u, taken, keeps⟩ := progress s a start holds.1
    obtain ⟨t, ran, ends⟩ := ih keeps ((along_cons taken).mp holds).2
    exact ⟨t, exec_cons_eq_some.mpr ⟨u, taken, ran⟩, ends⟩

/-- No condition holds along every run. -/
theorem along_true (s : S) (before : List A) : Along step (fun _ _ => True) s before := by
  induction before generalizing s with
  | nil => trivial
  | cons a rest ih => cases taken : step s a <;> simp [Along, taken, ih]

/-- Where every action can be taken and keeps a fact, every list of actions can be run and ends
with the fact. -/
theorem exec_total (progress : ∀ s a, P s → ∃ t, step s a = some t ∧ P t) (start : P s) :
    ∃ t, exec step s before = some t ∧ P t :=
  exec_total_along (fun s a holds _ => progress s a holds) start (along_true s before)

/-- What every step keeps holds at the end of every run. -/
theorem exec_keeps (keeps : ∀ s a t, P s → step s a = some t → P t) (start : P s)
    (ran : exec step s before = some t) : P t :=
  exec_keeps_along (fun s a t holds _ => keeps s a t holds) start (along_true s before) ran

/-- A fact that holds at the end of a run and not at its start began with one of its actions. -/
theorem exec_begins (start : ¬ P s) (holds : Along step ok s before)
    (ran : exec step s before = some t) (ends : P t) :
    ∃ early a late u v, before = early ++ a :: late ∧ Along step ok s early
      ∧ exec step s early = some u ∧ ok u a ∧ step u a = some v ∧ ¬ P u ∧ P v
      ∧ exec step v late = some t := by
  induction before generalizing s with
  | nil =>
    cases ran
    exact absurd ends start
  | cons a rest ih =>
    obtain ⟨u, taken, onward⟩ := exec_cons_eq_some.mp ran
    rw [along_cons taken] at holds
    by_cases begun : P u
    · exact ⟨[], a, rest, s, u, rfl, trivial, exec_nil, holds.1, taken, start, begun, onward⟩
    · obtain ⟨early, b, late, v, w, rfl, along, reached, began⟩ := ih begun holds.2 onward
      exact ⟨a :: early, b, late, v, w, rfl, (along_cons taken).mpr ⟨holds.1, along⟩,
        exec_cons_eq_some.mpr ⟨u, taken, reached⟩, began⟩

/-- A result is computed, what is decidable about it is checked there, and the rest follows. -/
theorem reaches_of_decide {result : Option S} {Q : S → Prop} [DecidablePred P]
    (checked : result.any (fun t => decide (P t)) = true)
    (rest : ∀ t, result = some t → P t → Q t) : ∃ t, result = some t ∧ Q t := by
  obtain ⟨t, ran, holds⟩ := (Option.any_eq_true _ _).mp checked
  exact ⟨t, ran, rest t ran (of_decide_eq_true holds)⟩

/-- A run can be carried out, and what is decidable about its last state be checked there. -/
theorem exec_reaches [DecidablePred P]
    (reached : (exec step s before).any (fun t => decide (P t)) = true) :
    ∃ t, exec step s before = some t ∧ P t :=
  reaches_of_decide reached fun _ _ holds => holds

end Machine
