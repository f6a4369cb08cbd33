import Mathlib.Data.List.Basic

/- A reader of a stream that stops where it needs more and goes on later.

   A reader has a state and takes units from the front of what is unread, or takes
   none and waits. What it took it would have taken with more units behind as well
   (`Reader.more`), so cutting the stream into pieces changes nothing: reading piece
   by piece, with what is unread carried over, is one reading of the whole stream
   (`Reader.feed_pieces`). -/
namespace Resume

structure Reader (σ α : Type) where
  /-- The next state and the number of units taken. -/
  take : σ → List α → Option (σ × Nat)
  pos : ∀ {s r t n}, take s r = some (t, n) → 0 < n ∧ n ≤ r.length
  more : ∀ {s r t n}, take s r = some (t, n) → ∀ x, take s (r ++ x) = some (t, n)

namespace Reader
variable {σ α : Type} (M : Reader σ α)

/-- Reading on, `fuel` takes at most. -/
def go : Nat → σ → List α → σ × List α
  | 0, s, r => (s, r)
  | fuel + 1, s, r =>
    match M.take s r with
    | none => (s, r)
    | some (t, n) => go fuel t (r.drop n)

/-- Reading on as far as the units go: the state, and what is unread. -/
def run (s : σ) (r : List α) : σ × List α := M.go r.length s r

/-- One piece more. -/
def feed (c : σ × List α) (piece : List α) : σ × List α := M.run c.1 (c.2 ++ piece)

variable {M}

theorem drop_lt {s t : σ} {r : List α} {n : Nat} (h : M.take s r = some (t, n)) : (r.drop n).length < r.length := by
  have hn := M.pos h
  rw [List.length_drop]
  omega

theorem take_nil (s : σ) : M.take s [] = none := by
  refine Option.eq_none_iff_forall_ne_some.mpr fun x hx => ?_
  have hx := M.pos hx
  rw [List.length_nil] at hx
  omega

theorem go_nil (n : Nat) (s : σ) : M.go n s [] = (s, []) := by
  cases n with
  | zero => rfl
  | succ n => rw [go, take_nil]

theorem go_fuel : ∀ {n m : Nat} {s : σ} {r : List α}, r.length ≤ n → r.length ≤ m → M.go n s r = M.go m s r
  | 0, m, s, r, hn, _ => by
    obtain rfl := List.eq_nil_of_length_eq_zero (Nat.le_zero.mp hn)
    rw [go_nil, go_nil]
  | n + 1, 0, s, r, _, hm => by
    obtain rfl := List.eq_nil_of_length_eq_zero (Nat.le_zero.mp hm)
    rw [go_nil, go_nil]
  | n + 1, m + 1, s, r, hn, hm => by
    rw [go, go]
    cases h : M.take s r with
    | none => rfl
    | some x =>
      have := drop_lt h
      exact go_fuel (by omega) (by omega)

theorem run_none {s : σ} {r : List α} (h : M.take s r = none) : M.run s r = (s, r) := by
  cases r with
  | nil => rfl
  | cons a r => rw [run, List.length_cons, go, h]

theorem run_some {s t : σ} {r : List α} {n : Nat} (h : M.take s r = some (t, n)) :
    M.run s r = M.run t (r.drop n) := by
  have hlen := drop_lt h
  obtain ⟨k, hk⟩ := Nat.exists_eq_succ_of_ne_zero (show r.length ≠ 0 by omega)
  rw [run, run, hk, Nat.succ_eq_add_one, go, h]
  exact go_fuel (by omega) (Nat.le_refl _)

/-- Reading stops where nothing can be taken. -/
theorem take_run (s : σ) (r : List α) : M.take (M.run s r).1 (M.run s r).2 = none := by
  induction hn : r.length using Nat.strongRecOn generalizing s r with
  | ind n ih =>
    cases h : M.take s r with
    | none => rw [run_none h, h]
    | some x =>
      rw [run_some h]
      exact ih _ (hn ▸ drop_lt h) _ _ rfl

theorem run_append (s : σ) (a b : List α) : M.run s (a ++ b) = M.run (M.run s a).1 ((M.run s a).2 ++ b) := by
  induction hn : a.length using Nat.strongRecOn generalizing s a with
  | ind n ih =>
    cases h : M.take s a with
    | none => rw [run_none h]
    | some x =>
      have hx := M.pos h
      rw [run_some h, run_some (M.more h b), List.drop_append_of_le_length hx.2]
      exact ih _ (hn ▸ drop_lt h) _ _ rfl

theorem feed_pieces (c : σ × List α) (pieces : List (List α)) (hc : M.take c.1 c.2 = none) :
    pieces.foldl M.feed c = M.run c.1 (c.2 ++ pieces.flatten) := by
  induction pieces generalizing c with
  | nil => rw [List.foldl_nil, List.flatten_nil, List.append_nil, run_none hc]
  | cons p ps ih =>
    rw [List.foldl_cons, feed, ih _ (take_run _ _), List.flatten_cons, ← List.append_assoc, run_append c.1 (c.2 ++ p)]

end Reader
end Resume
