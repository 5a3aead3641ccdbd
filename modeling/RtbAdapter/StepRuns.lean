import Mathlib.Tactic

/-!
# Runs of a partial step

A step takes an input and a state, and may end the run for good. A property is
followed along a run by what one step does to it: either every step keeps it, or
a step keeps it exactly under a condition on the input and the state before.
-/

namespace StepRuns

variable {σ ι : Type} (step : ι → σ → Option σ)

/-- The states that a run goes through, the first one included. -/
def states : σ → List ι → List σ
  | s, [] => [s]
  | s, i :: inputs =>
    s :: match step i s with
      | some after => states after inputs
      | none => []

/-- A condition on every step of a run that does not end it. -/
def Throughout (condition : ι → σ → Prop) : σ → List ι → Prop
  | _, [] => True
  | s, i :: inputs =>
    ∀ after, step i s = some after → condition i s ∧ Throughout condition after inputs

variable {step} {kept property : σ → Prop} {condition : ι → σ → Prop}

theorem throughout_cons {s : σ} {i : ι} {inputs : List ι} :
    Throughout step condition s (i :: inputs) ↔
      match step i s with
      | some after => condition i s ∧ Throughout step condition after inputs
      | none => True := by
  rw [Throughout]
  cases step i s with
  | none => simp
  | some after => simp

instance decidableThroughout [∀ i s, Decidable (condition i s)] :
    (s : σ) → (inputs : List ι) → Decidable (Throughout step condition s inputs)
  | _, [] => isTrue trivial
  | s, i :: inputs =>
    haveI : Decidable (match step i s with
        | some after => condition i s ∧ Throughout step condition after inputs
        | none => True) :=
      match step i s with
      | some after =>
        haveI := decidableThroughout after inputs
        inferInstanceAs (Decidable (_ ∧ _))
      | none => .isTrue trivial
    decidable_of_iff' _ throughout_cons

theorem states_cons {s t : σ} {i : ι} {inputs : List ι} :
    t ∈ states step s (i :: inputs) ↔
      t = s ∨ ∃ after, step i s = some after ∧ t ∈ states step after inputs := by
  rw [states, List.mem_cons]
  cases step i s with
  | none => simp
  | some after => simp

theorem first_mem_states (s : σ) (inputs : List ι) : s ∈ states step s inputs := by
  cases inputs <;> simp [states]

/-- An invariant holds in every state of a run. -/
theorem states_keep (keep : ∀ i s after, kept s → step i s = some after → kept after)
    {s : σ} (start : kept s) (inputs : List ι) : ∀ t ∈ states step s inputs, kept t := by
  induction inputs generalizing s with
  | nil => simpa [states] using start
  | cons i inputs ih =>
    intro t reached
    rcases states_cons.mp reached with rfl | ⟨after, stepped, reached⟩
    · exact start
    · exact ih (keep i s after start stepped) t reached

/-- A property that a step keeps under a condition holds along the runs under that
condition. -/
theorem states_keep_throughout
    (keep : ∀ i s after, kept s → condition i s → step i s = some after → kept after)
    {s : σ} (start : kept s) {inputs : List ι} (met : Throughout step condition s inputs) :
    ∀ t ∈ states step s inputs, kept t := by
  induction inputs generalizing s with
  | nil => simpa [states] using start
  | cons i inputs ih =>
    intro t reached
    rcases states_cons.mp reached with rfl | ⟨after, stepped, reached⟩
    · exact start
    · obtain ⟨here, rest⟩ := met after stepped
      exact ih (keep i s after start here stepped) rest t reached

/-- A condition on the inputs alone. -/
theorem throughout_inputs {allowed : ι → Prop} (s : σ) {inputs : List ι}
    (all : ∀ i ∈ inputs, allowed i) : Throughout step (fun i _ => allowed i) s inputs := by
  induction inputs generalizing s with
  | nil => trivial
  | cons i inputs ih =>
    intro after _
    exact ⟨all i (by simp), ih after fun j inside => all j (by simp [inside])⟩

/-- Two conditions that say the same of every step under an invariant. -/
theorem throughout_congr {other : ι → σ → Prop}
    (keep : ∀ i s after, kept s → step i s = some after → kept after)
    (same : ∀ i s after, kept s → step i s = some after → (condition i s ↔ other i s))
    {s : σ} (start : kept s) (inputs : List ι) :
    Throughout step condition s inputs ↔ Throughout step other s inputs := by
  induction inputs generalizing s with
  | nil => rfl
  | cons i inputs ih =>
    rw [Throughout, Throughout]
    refine forall₂_congr fun after stepped => ?_
    rw [same i s after start stepped, ih (keep i s after start stepped)]

/-- A property that a step keeps exactly under a condition holds in every state of a run
exactly when every step meets the condition. -/
theorem states_iff_throughout
    (keep : ∀ i s after, kept s → step i s = some after → kept after)
    (exact : ∀ i s after, kept s → property s → step i s = some after →
      (property after ↔ condition i s))
    {s : σ} (start : kept s) (good : property s) (inputs : List ι) :
    (∀ t ∈ states step s inputs, property t) ↔ Throughout step condition s inputs := by
  induction inputs generalizing s with
  | nil => simpa [states, Throughout] using good
  | cons i inputs ih =>
    constructor
    · intro all after stepped
      have inside : ∀ t ∈ states step after inputs, property t := fun t reached =>
        all t (states_cons.mpr (.inr ⟨after, stepped, reached⟩))
      have good' := inside after (first_mem_states after inputs)
      exact ⟨(exact i s after start good stepped).mp good',
        (ih (keep i s after start stepped) good').mp inside⟩
    · intro met t reached
      rcases states_cons.mp reached with rfl | ⟨after, stepped, reached⟩
      · exact good
      · obtain ⟨here, rest⟩ := met after stepped
        have good' := (exact i s after start good stepped).mpr here
        exact (ih (keep i s after start stepped) good').mpr rest t reached

/-- Where an invariant is stronger than the property, a run keeps the property exactly under
a condition that the property after a step needs and that lets a step keep the invariant. -/
theorem states_iff_invariant
    (needed : ∀ i s after, kept s → step i s = some after → property after → condition i s)
    (keep : ∀ i s after, kept s → condition i s → step i s = some after → kept after)
    (sound : ∀ s, kept s → property s) {s : σ} (start : kept s) (inputs : List ι) :
    (∀ t ∈ states step s inputs, property t) ↔ Throughout step condition s inputs := by
  constructor
  · intro all
    induction inputs generalizing s with
    | nil => trivial
    | cons i inputs ih =>
      intro after stepped
      have inside : ∀ t ∈ states step after inputs, property t := fun t reached =>
        all t (states_cons.mpr (.inr ⟨after, stepped, reached⟩))
      have met := needed i s after start stepped (inside after (first_mem_states after inputs))
      exact ⟨met, ih (keep i s after start met stepped) inside⟩
  · intro met t reached
    exact sound t (states_keep_throughout keep start met t reached)

end StepRuns
