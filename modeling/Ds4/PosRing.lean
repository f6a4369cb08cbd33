import Mathlib.Logic.Function.Basic
import Mathlib.Data.List.Basic

/- A ring of rows indexed by position: position `p` goes to slot `p % cap`, and a later
   row replaces an earlier one.

   `Live` says what such a ring still has: the last `cap` positions written. One write
   keeps it (`Live.put`), so does a batch of them (`Live.putAll`), and any stretch of
   live positions reads back in order (`Live.read`). -/
namespace PosRing

variable {α : Type}

def put (cap : Nat) (rows : Nat → Option α) (p : Nat) (x : α) : Nat → Option α :=
  Function.update rows (p % cap) (some x)

/-- The rows of `n` positions from `pos` on, in order. -/
def putAll (cap : Nat) (rows : Nat → Option α) (val : Nat → α) (pos n : Nat) : Nat → Option α :=
  (List.range' pos n).foldl (fun rows p => put cap rows p (val p)) rows

/-- `n` slots from `start` on, around the ring. -/
def read (cap : Nat) (rows : Nat → Option α) (start n : Nat) : List (Option α) :=
  (List.range n).map fun r => rows ((start + r) % cap)

/-- Of the positions before `len` the ring has the last `cap`. -/
def Live (cap : Nat) (rows : Nat → Option α) (val : Nat → α) (len : Nat) : Prop :=
  ∀ q, q < len → len ≤ q + cap → rows (q % cap) = some (val q)

theorem live_zero (cap : Nat) (rows : Nat → Option α) (val : Nat → α) : Live cap rows val 0 :=
  fun _ h _ => absurd h (Nat.not_lt_zero _)

/-- Less than a round apart, two positions have different slots. -/
theorem slot_ne {cap p q : Nat} (hlt : q < p) (hnear : p < q + cap) : q % cap ≠ p % cap := by
  intro h
  have hmod := Nat.sub_mod_eq_zero_of_mod_eq h.symm
  rw [Nat.mod_eq_of_lt (by omega)] at hmod
  omega

theorem Live.put {cap : Nat} {rows : Nat → Option α} {val : Nat → α} {len : Nat} (h : Live cap rows val len) :
    Live cap (put cap rows len (val len)) val (len + 1) := by
  intro q hq hcap
  rw [PosRing.put]
  rcases Nat.lt_succ_iff_lt_or_eq.mp hq with hlt | rfl
  · rw [Function.update_of_ne (slot_ne hlt (by omega))]
    exact h q hlt (by omega)
  · rw [Function.update_self]

theorem Live.putAll {cap : Nat} {val : Nat → α} : ∀ {n len : Nat} {rows : Nat → Option α}, Live cap rows val len →
    Live cap (putAll cap rows val len n) val (len + n)
  | 0, _, _, h => h
  | n + 1, len, rows, h => by
    have ih := Live.putAll (n := n) h.put
    rw [show len + (n + 1) = len + 1 + n by omega]
    exact ih

/-- Live positions read back in order. -/
theorem Live.read {cap : Nat} {rows : Nat → Option α} {val : Nat → α} {len : Nat} (h : Live cap rows val len) {start n : Nat}
    (hlive : len ≤ start + cap) (hlen : start + n ≤ len) :
    read cap rows start n = (List.range' start n).map fun q => some (val q) := by
  rw [PosRing.read, List.range'_eq_map_range, List.map_map]
  refine List.map_congr_left fun r hr => ?_
  have := List.mem_range.mp hr
  exact h (start + r) (by omega) (by omega)

theorem read_mod (cap : Nat) (rows : Nat → Option α) (start d n : Nat) :
    read cap rows (start % cap + d) n = read cap rows (start + d) n := by
  refine List.map_congr_left fun r _ => ?_
  rw [Nat.add_assoc, Nat.mod_add_mod, ← Nat.add_assoc]

end PosRing
