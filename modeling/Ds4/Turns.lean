import Mathlib.Data.Nat.Init

/- A loop that turns until it stops: `turn s` is the state to go on with or the
   one to stop in. Nothing here is about one loop.

   `Settles turn s t` says that the loop from `s` stops in `t`. PROVED here: it
   stops in one state at most (`Settles.unique`), and where a measure falls with
   every turn, the loop run with more fuel than it stops there (`settles_loop`). -/
namespace Ds4.Turns

variable {σ : Type}

inductive Turn (σ : Type) where
  | goOn (s : σ)
  | stop (s : σ)
  deriving DecidableEq, Repr

/-- The loop, with `fuel` turns at most. -/
def loop (turn : σ → Turn σ) : Nat → σ → σ
  | 0, s => s
  | fuel + 1, s =>
    match turn s with
    | .goOn s' => loop turn fuel s'
    | .stop s' => s'

inductive Settles (turn : σ → Turn σ) : σ → σ → Prop
  | stop {s t : σ} (h : turn s = .stop t) : Settles turn s t
  | goOn {s s' t : σ} (h : turn s = .goOn s') (ht : Settles turn s' t) : Settles turn s t

variable {turn : σ → Turn σ} {s t t' : σ}

theorem Settles.unique (h : Settles turn s t) (h' : Settles turn s t') : t = t' := by
  induction h with
  | stop hs =>
    cases h' with
    | stop hs' =>
      rw [hs] at hs'
      exact Turn.stop.inj hs'
    | goOn hs' =>
      rw [hs] at hs'
      cases hs'
  | goOn hs _ ih =>
    cases h' with
    | stop hs' =>
      rw [hs] at hs'
      cases hs'
    | goOn hs' ht' =>
      rw [hs] at hs'
      cases hs'
      exact ih ht'

/-- Two states with one next turn settle alike. -/
theorem Settles.of_turn {s' : σ} (heq : turn s' = turn s) (h : Settles turn s t) : Settles turn s' t := by
  cases h with
  | stop hs => exact .stop (heq.trans hs)
  | goOn hs ht => exact .goOn (heq.trans hs) ht

theorem settles_loop (measure : σ → Nat) (hfall : ∀ s s', turn s = .goOn s' → measure s' < measure s) {fuel : Nat}
    (hfuel : measure s < fuel) : Settles turn s (loop turn fuel s) := by
  induction fuel generalizing s with
  | zero => omega
  | succ fuel ih =>
    rw [loop]
    cases h : turn s with
    | stop s' => exact .stop h
    | goOn s' =>
      have := hfall s s' h
      exact .goOn h (ih (by omega))

end Ds4.Turns
