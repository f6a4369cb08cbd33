import Mathlib.Data.List.Basic

/- Runs of a system that takes one event after the other: `step s e` is the state
   after `e`. What an event leaves open (a failure, a delivery order) is part of
   the event. Nothing here is about one system.

   PROVED here: an invariant that every admitted event keeps holds at the end of
   every admitted run (`Admitted.invariant`), a property that follows from it holds
   all along (`Admitted.always`), and where an event that is not admitted spoils
   the property at once, the runs it holds along are the admitted ones
   (`always_iff_admitted`). `Occurs` and `Since` look back over a run: what
   happened in it, and what happened with nothing of a second kind after it. Their
   `concat` lemmas say what one more event changes. -/
namespace Ds4.Runs

variable {σ ε : Type}

/-- The state after the events, in order. -/
def run (step : σ → ε → σ) (s : σ) (events : List ε) : σ := events.foldl step s

/-- `P` holds at the start and after every event. -/
def Always (step : σ → ε → σ) (P : σ → Prop) : σ → List ε → Prop
  | s, [] => P s
  | s, e :: events => P s ∧ Always step P (step s e) events

/-- Every event satisfies `G` in the state it meets. -/
def Admitted (step : σ → ε → σ) (G : σ → ε → Prop) : σ → List ε → Prop
  | _, [] => True
  | s, e :: events => G s e ∧ Admitted step G (step s e) events

instance instDecidableAdmitted (step : σ → ε → σ) (G : σ → ε → Prop) [∀ s e, Decidable (G s e)] :
    (s : σ) → (events : List ε) → Decidable (Admitted step G s events)
  | _, [] => .isTrue trivial
  | s, e :: events =>
    have := instDecidableAdmitted step G (step s e) events
    inferInstanceAs (Decidable (_ ∧ _))

variable {step : σ → ε → σ} {I P : σ → Prop} {G : σ → ε → Prop} {s : σ} {events : List ε}

theorem Always.head (h : Always step P s events) : P s := by
  cases events with
  | nil => exact h
  | cons e events => exact h.1

theorem Always.last (h : Always step P s events) : P (run step s events) := by
  induction events generalizing s with
  | nil => exact h
  | cons e events ih => exact ih h.2

theorem Admitted.invariant (hstep : ∀ s e, I s → G s e → I (step s e)) (hs : I s) (h : Admitted step G s events) :
    I (run step s events) := by
  induction events generalizing s with
  | nil => exact hs
  | cons e events ih => exact ih (hstep s e hs h.1) h.2

theorem Admitted.always (hstep : ∀ s e, I s → G s e → I (step s e)) (hP : ∀ s, I s → P s) (hs : I s)
    (h : Admitted step G s events) : Always step P s events := by
  induction events generalizing s with
  | nil => exact hP s hs
  | cons e events ih => exact ⟨hP s hs, ih (hstep s e hs h.1) h.2⟩

/-- An admitted run admits each event after those before it. -/
theorem admitted_iff : Admitted step G s events ↔
    ∀ before e after, events = before ++ e :: after → G (run step s before) e := by
  induction events generalizing s with
  | nil => simp [Admitted]
  | cons e events ih =>
    constructor
    · rintro ⟨hg, hrest⟩ before e' after heq
      cases before with
      | nil =>
        obtain ⟨rfl, -⟩ := List.cons.inj heq
        exact hg
      | cons x before =>
        obtain ⟨rfl, hrest'⟩ := List.cons.inj heq
        exact ih.mp hrest before e' after hrest'
    · intro h
      exact ⟨h [] e events rfl, ih.mpr fun before e' after heq => h (e :: before) e' after (by rw [heq]; rfl)⟩

/-- The exact condition for `P` all along, where leaving `G` breaks `P` in the next state. -/
theorem always_iff_admitted (hstep : ∀ s e, I s → G s e → I (step s e)) (hP : ∀ s, I s → P s)
    (hspoil : ∀ s e, I s → ¬G s e → ¬P (step s e)) (hs : I s) :
    Always step P s events ↔ Admitted step G s events := by
  refine ⟨fun h => ?_, Admitted.always hstep hP hs⟩
  induction events generalizing s with
  | nil => trivial
  | cons e events ih =>
    have hg : G s e := by
      by_contra hg
      exact hspoil s e hs hg h.2.head
    exact ⟨hg, ih (hstep s e hs hg) h.2⟩

/-! ## Looking back -/

/-- `R` holds of an event of the run, in the state the event meets. -/
def Occurs (step : σ → ε → σ) (R : σ → ε → Prop) : σ → List ε → Prop
  | _, [] => False
  | s, e :: events => R s e ∨ Occurs step R (step s e) events

/-- `Q` holds of an event of the run, and `R` of none after that one. -/
def Since (step : σ → ε → σ) (Q R : σ → ε → Prop) : σ → List ε → Prop
  | _, [] => False
  | s, e :: events => (Q s e ∧ ¬Occurs step R (step s e) events) ∨ Since step Q R (step s e) events

variable {Q R : σ → ε → Prop} {e : ε}

theorem run_concat : run step s (events ++ [e]) = step (run step s events) e := by
  simp [run]

theorem occurs_concat : Occurs step R s (events ++ [e]) ↔ Occurs step R s events ∨ R (run step s events) e := by
  induction events generalizing s with
  | nil => simp [Occurs, run]
  | cons e' events ih =>
    have hrun : run step s (e' :: events) = run step (step s e') events := rfl
    simp only [List.cons_append, Occurs, ih, hrun, or_assoc]

theorem since_concat : Since step Q R s (events ++ [e]) ↔
    Q (run step s events) e ∨ (Since step Q R s events ∧ ¬R (run step s events) e) := by
  induction events generalizing s with
  | nil => simp [Since, Occurs, run]
  | cons e' events ih =>
    have hrun : run step s (e' :: events) = run step (step s e') events := rfl
    simp only [List.cons_append, Since, ih, occurs_concat, hrun]
    tauto

end Ds4.Runs
