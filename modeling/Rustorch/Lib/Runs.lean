import Mathlib.Data.List.Basic

/-!
# Runs of a state machine

A machine takes one event after another.  Each step may emit observations; a run collects them in
order.  `Along guard` says that every step of a run met its guard.

- `run`, `outputs`  : the final state and the observations
- `invariant`       : what every guarded step keeps, every guarded run keeps
- `Throughout`      : a property of every step of a run
-/

namespace Runs

open List

variable {σ ε ω : Type*} (step : σ → ε → σ) (out : σ → ε → List ω) (guard : σ → ε → Prop)

def run (s : σ) (es : List ε) : σ :=
  es.foldl step s

def outputs : σ → List ε → List ω
  | _, [] => []
  | s, e :: es => out s e ++ outputs (step s e) es

/-- Every step of the run meets the guard. -/
def Along : σ → List ε → Prop
  | _, [] => True
  | s, e :: es => guard s e ∧ Along (step s e) es

instance Along.decidable [∀ s e, Decidable (guard s e)] :
    ∀ (s : σ) (es : List ε), Decidable (Along step guard s es)
  | _, [] => inferInstanceAs (Decidable True)
  | s, e :: es =>
    have := Along.decidable (step s e) es
    inferInstanceAs (Decidable (guard s e ∧ Along step guard (step s e) es))

/-- The property holds at every step of a run, of the state and the observations before it and of
its event. -/
def Throughout (P : σ → List ω → ε → Prop) : σ → List ω → List ε → Prop
  | _, _, [] => True
  | s, acc, e :: es => P s acc e ∧ Throughout P (step s e) (acc ++ out s e) es

variable {step out guard}

@[simp] theorem run_nil (s : σ) : run step s [] = s := rfl

@[simp] theorem run_cons (s : σ) (e : ε) (es : List ε) :
    run step s (e :: es) = run step (step s e) es := rfl

theorem run_append (s : σ) (es fs : List ε) :
    run step s (es ++ fs) = run step (run step s es) fs :=
  foldl_append

theorem outputs_append (s : σ) (es fs : List ε) :
    outputs step out s (es ++ fs) =
      outputs step out s es ++ outputs step out (run step s es) fs := by
  induction es generalizing s with
  | nil => rfl
  | cons e es ih =>
    simp only [cons_append, outputs, run_cons, ih, append_assoc]

variable {s : σ} {es : List ε} {acc : List ω} {P : σ → List ω → ε → Prop}

theorem along_append {fs : List ε} : Along step guard s (es ++ fs) ↔
      Along step guard s es ∧ Along step guard (run step s es) fs := by
  induction es generalizing s with
  | nil => simp [Along]
  | cons e es ih => simp [Along, ih, and_assoc]

theorem Along.and {guard' : σ → ε → Prop} : Along step guard s es →
    Along step guard' s es → Along step (fun s e => guard s e ∧ guard' s e) s es := by
  induction es generalizing s with
  | nil => exact fun _ _ => trivial
  | cons e es ih => exact fun h h' => ⟨⟨h.1, h'.1⟩, ih h.2 h'.2⟩

/-- A run meets a guard when each of its events does, after the events before it. -/
theorem along_iff : Along step guard s es ↔
      ∀ before e after, es = before ++ e :: after → guard (run step s before) e := by
  constructor
  · intro h before e after heq
    rw [heq, along_append] at h
    exact h.2.1
  · intro h
    induction es generalizing s with
    | nil => trivial
    | cons e es ih =>
      refine ⟨h [] e es rfl, ih ?_⟩
      intro before f after heq
      exact h (e :: before) f after (by rw [heq]; rfl)

theorem invariant_outputs (Inv : σ → List ω → Prop)
    (hstep : ∀ s acc e, guard s e → Inv s acc → Inv (step s e) (acc ++ out s e)) :
    Along step guard s es → Inv s acc → Inv (run step s es) (acc ++ outputs step out s es) := by
  induction es generalizing s acc with
  | nil =>
    intro _ h
    simpa [outputs] using h
  | cons e es ih =>
    intro halong h
    have hnext := ih halong.2 (hstep s acc e halong.1 h)
    simpa [outputs] using hnext

theorem invariant (Inv : σ → Prop) (hstep : ∀ s e, guard s e → Inv s → Inv (step s e)) :
    Along step guard s es → Inv s → Inv (run step s es) := by
  induction es generalizing s with
  | nil => exact fun _ h => h
  | cons e es ih => exact fun halong h => ih halong.2 (hstep s e halong.1 h)

/-- Where the guard of a step decides a property of it, as long as the steps before met theirs, it
does so for whole runs of the events that are allowed. -/
theorem throughout_iff_along_of (Allowed : ε → Prop) (Inv : σ → List ω → Prop)
    (hstep : ∀ s acc e, Allowed e → guard s e → Inv s acc → Inv (step s e) (acc ++ out s e))
    (hiff : ∀ s acc e, Allowed e → Inv s acc → (P s acc e ↔ guard s e)) :
    (∀ e ∈ es, Allowed e) → Inv s acc →
      (Throughout step out P s acc es ↔ Along step guard s es) := by
  induction es generalizing s acc with
  | nil => exact fun _ _ => Iff.rfl
  | cons e es ih =>
    intro hall h
    obtain ⟨he, hes⟩ := forall_mem_cons.1 hall
    rw [Throughout, Along, hiff s acc e he h]
    exact and_congr_right fun hguard => ih hes (hstep s acc e he hguard h)

theorem throughout_iff_along (Inv : σ → List ω → Prop)
    (hstep : ∀ s acc e, guard s e → Inv s acc → Inv (step s e) (acc ++ out s e))
    (hiff : ∀ s acc e, Inv s acc → (P s acc e ↔ guard s e)) :
    Inv s acc → (Throughout step out P s acc es ↔ Along step guard s es) :=
  throughout_iff_along_of (fun _ => True) Inv (fun s acc e _ => hstep s acc e)
    (fun s acc e _ => hiff s acc e) (fun _ _ => trivial)

/-- Where the guard of a step decides whether the state that it reaches is good, a run meets the
guard if and only if all the states that it reaches are good. -/
theorem forall_reached_iff (Inv : σ → Prop) {Good : σ → Prop} (hgood : ∀ s, Inv s → Good s)
    (hstep : ∀ s e, guard s e → Inv s → Inv (step s e))
    (hguard : ∀ s e, Inv s → Good (step s e) → guard s e) (h : Inv s) :
    (∀ before after, es = before ++ after → Good (run step s before)) ↔ Along step guard s es := by
  constructor
  · intro hall
    induction es generalizing s with
    | nil => trivial
    | cons e es ih =>
      have hfirst := hguard s e h (hall [e] es rfl)
      refine ⟨hfirst, ih (hstep s e hfirst h) ?_⟩
      intro before after heq
      exact hall (e :: before) after (by rw [heq, cons_append])
  · intro halong before after heq
    rw [heq, along_append] at halong
    exact hgood _ (invariant Inv hstep halong.1 h)

theorem along_true : Along step (fun _ _ => True) s es := by
  induction es generalizing s with
  | nil => trivial
  | cons e es ih => exact ⟨trivial, ih⟩

/-- Where a step outside its guard does damage that no later step repairs, a run either met its
guard or is damaged. -/
theorem along_or (Inv Lost : σ → List ω → Prop)
    (hstep : ∀ s acc e, guard s e → Inv s acc → Inv (step s e) (acc ++ out s e))
    (hlost : ∀ s acc e, ¬ guard s e → Inv s acc → Lost (step s e) (acc ++ out s e))
    (hstays : ∀ s acc e, Lost s acc → Lost (step s e) (acc ++ out s e)) :
    Inv s acc → Along step guard s es ∨ Lost (run step s es) (acc ++ outputs step out s es) := by
  induction es generalizing s acc with
  | nil => exact fun _ => .inl trivial
  | cons e es ih =>
    intro h
    rw [outputs, ← append_assoc]
    by_cases hguard : guard s e
    · rcases ih (hstep s acc e hguard h) with halong | hlost'
      · exact .inl ⟨hguard, halong⟩
      · exact .inr hlost'
    · right
      exact invariant_outputs Lost (fun s acc e _ => hstays s acc e) along_true
        (hlost s acc e hguard h)

end Runs
