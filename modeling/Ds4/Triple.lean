import Mathlib.Tactic.Basic

/- Pre- and postconditions of a computation that may fail and keeps its state
   when it does.

   `Triple P x Q E`: from a state with `P`, `x` ends in a value and a state with
   `Q`, or fails in a state with `E`. One rule for each way such a computation
   is put together; a proof about a program follows the program's text. -/
namespace Ds4

variable {ε σ α β : Type}

def Triple (P : σ → Prop) (x : EStateM ε σ α) (Q : α → σ → Prop) (E : σ → Prop) : Prop :=
  ∀ s, P s → match x s with
    | .ok a s' => Q a s'
    | .error _ s' => E s'

namespace Triple
variable {P : σ → Prop} {E : σ → Prop}

theorem pure {Q : α → σ → Prop} {a : α} (h : ∀ s, P s → Q a s) : Triple P (Pure.pure a : EStateM ε σ α) Q E :=
  fun s hs => h s hs

theorem throw {Q : α → σ → Prop} {e : ε} (h : ∀ s, P s → E s) : Triple P (MonadExcept.throw e : EStateM ε σ α) Q E :=
  fun s hs => h s hs

theorem get {Q : σ → σ → Prop} (h : ∀ s, P s → Q s s) : Triple P (MonadState.get : EStateM ε σ σ) Q E :=
  fun s hs => h s hs

theorem bind {x : EStateM ε σ α} {f : α → EStateM ε σ β} {Q : α → σ → Prop} {R : β → σ → Prop}
    (hx : Triple P x Q E) (hf : ∀ a, Triple (Q a) (f a) R E) : Triple P (x >>= f) R E := by
  intro s hs
  have h := hx s hs
  show match EStateM.bind x f s with
    | .ok a s' => R a s'
    | .error _ s' => E s'
  rw [EStateM.bind]
  cases hr : x s with
  | ok a s' =>
    rw [hr] at h
    exact hf a s' h
  | error e s' =>
    rw [hr] at h
    exact h

theorem pre {R : σ → Prop} {x : EStateM ε σ α} {Q : α → σ → Prop} (hx : Triple R x Q E) (h : ∀ s, P s → R s) : Triple P x Q E :=
  fun s hs => hx s (h s hs)

theorem post {x : EStateM ε σ α} {Q R : α → σ → Prop} (hx : Triple P x Q E) (h : ∀ a s, Q a s → R a s) :
    Triple P x R E := by
  intro s hs
  have hr := hx s hs
  cases hx' : x s with
  | ok a s' =>
    rw [hx'] at hr
    exact h a s' hr
  | error e s' =>
    rw [hx'] at hr
    exact hr

theorem ite {c : Prop} [Decidable c] {x y : EStateM ε σ α} {Q : α → σ → Prop} (hx : c → Triple P x Q E)
    (hy : ¬c → Triple P y Q E) : Triple P (if c then x else y) Q E := by
  by_cases hc : c
  · rw [if_pos hc]
    exact hx hc
  · rw [if_neg hc]
    exact hy hc

/-- A computation that is known from each state. -/
theorem run {x : EStateM ε σ α} {Q : α → σ → Prop} (h : ∀ s, P s → ∃ a s', x s = .ok a s' ∧ Q a s') :
    Triple P x Q E := by
  intro s hs
  obtain ⟨a, s', hx, hq⟩ := h s hs
  rw [hx]
  exact hq

/-- A fact that does not depend on the state moves out of the precondition. -/
theorem assume {p : Prop} {x : EStateM ε σ α} {Q : α → σ → Prop} (hx : p → Triple P x Q E) :
    Triple (fun s => p ∧ P s) x Q E := fun s hs => hx hs.1 s hs.2

end Triple

end Ds4
