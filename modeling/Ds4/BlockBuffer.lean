import Mathlib.Algebra.Group.Nat.Defs

/- Absorbing a stream in blocks. A compression takes a state and a whole block of
   `n` elements; a stream that arrives in pieces of any length is kept back until
   a block is full. The state and the elements kept back depend on the stream
   alone (`absorb_append`), and on a stream of whole blocks they are the fold of
   the compression over the blocks (`absorb_blocks`). -/
namespace Ds4

variable {α σ : Type} {f : σ → List α → σ} {n : Nat}

variable (f n) in
/-- One element into the pending block, and the block into the state when it is full. -/
def absorbOne (c : σ × List α) (x : α) : σ × List α :=
  if (c.2 ++ [x]).length = n then (f c.1 (c.2 ++ [x]), []) else (c.1, c.2 ++ [x])

variable (f n) in
def absorb (c : σ × List α) (p : List α) : σ × List α := p.foldl (absorbOne f n) c

theorem absorb_append (c : σ × List α) (p q : List α) : absorb f n c (p ++ q) = absorb f n (absorb f n c p) q :=
  List.foldl_append

/-- What leaves room in the block is only kept back. -/
theorem absorb_fit : ∀ {c : σ × List α} {p : List α}, c.2.length + p.length < n → absorb f n c p = (c.1, c.2 ++ p)
  | c, [], _ => by rw [absorb, List.foldl_nil, List.append_nil]
  | c, x :: p, h => by
    rw [List.length_cons] at h
    have hone : absorbOne f n c x = (c.1, c.2 ++ [x]) := by
      rw [absorbOne, if_neg (by rw [List.length_append, List.length_singleton]; omega)]
    have hrest : absorb f n (c.1, c.2 ++ [x]) p = (c.1, c.2 ++ [x] ++ p) :=
      absorb_fit (by rw [List.length_append, List.length_singleton]; omega)
    have hstep : absorb f n c (x :: p) = absorb f n (absorbOne f n c x) p := rfl
    rw [hstep, hone, hrest, List.append_assoc, List.singleton_append]

/-- What fills the block sends it into the state. -/
theorem absorb_fill {c : σ × List α} {p : List α} (h : c.2.length + p.length = n) (hp : p ≠ []) :
    absorb f n c p = (f c.1 (c.2 ++ p), []) := by
  obtain ⟨q, x, rfl⟩ : ∃ q x, p = q ++ [x] := ⟨p.dropLast, p.getLast hp, (List.dropLast_concat_getLast hp).symm⟩
  rw [List.length_append, List.length_singleton] at h
  have hone : absorbOne f n (c.1, c.2 ++ q) x = (f c.1 (c.2 ++ q ++ [x]), []) := by
    rw [absorbOne, if_pos (by simp only [List.length_append, List.length_singleton]; omega)]
  have hfit : absorb f n c q = (c.1, c.2 ++ q) := absorb_fit (by omega)
  have hlast : absorb f n (c.1, c.2 ++ q) [x] = absorbOne f n (c.1, c.2 ++ q) x := rfl
  rw [absorb_append, hfit, hlast, hone, List.append_assoc]

/-- The blocks of a stream, a last one that is not whole left out. -/
def blocks (n : Nat) (l : List α) : List (List α) := (List.range (l.length / n)).map fun i => (l.drop (i * n)).take n

theorem blocks_append {b : List α} (hb : b.length = n) (hn : 0 < n) (l : List α) : blocks n (b ++ l) = b :: blocks n l := by
  have hlen : (b ++ l).length / n = l.length / n + 1 := by rw [List.length_append, hb, Nat.add_div_left _ hn]
  rw [blocks, hlen, List.range_succ_eq_map, List.map_cons, Nat.zero_mul, List.drop_zero, List.take_left' hb, List.map_map, blocks]
  congr 1
  apply List.map_congr_left
  intro i _
  rw [Function.comp_apply, Nat.succ_mul, Nat.add_comm, ← List.drop_drop, List.drop_left' hb]

/-- A stream of whole blocks is absorbed block by block, and nothing is kept back. -/
theorem absorb_blocks (hn : 0 < n) (s : σ) : ∀ (k : Nat) {l : List α}, l.length = k * n →
    absorb f n (s, []) l = ((blocks n l).foldl f s, []) := by
  intro k
  induction k generalizing s with
  | zero =>
    intro l hl
    obtain rfl := List.length_eq_zero_iff.mp (hl.trans (Nat.zero_mul n))
    rw [blocks, List.length_nil, Nat.zero_div]
    rfl
  | succ k ih =>
    intro l hl
    have hle : n ≤ l.length := by
      rw [hl, Nat.succ_mul]
      exact Nat.le_add_left _ _
    have hb : (l.take n).length = n := List.length_take_of_le hle
    have hrest : (l.drop n).length = k * n := by rw [List.length_drop, hl, Nat.succ_mul, Nat.add_sub_cancel]
    have hfill : absorb f n (s, []) (l.take n) = (f s (l.take n), []) := by
      rw [absorb_fill (by rw [hb]; exact Nat.zero_add n) (List.ne_nil_of_length_pos (by omega)), List.nil_append]
    rw [← List.take_append_drop n l, absorb_append, hfill, ih _ hrest, blocks_append hb hn, List.foldl_cons]

/-- How many elements are kept back. -/
theorem length_absorb {c : σ × List α} (hc : c.2.length < n) (p : List α) :
    (absorb f n c p).2.length = (c.2.length + p.length) % n := by
  induction p generalizing c with
  | nil => exact (Nat.mod_eq_of_lt hc).symm
  | cons x p ih =>
    have hone : (absorbOne f n c x).2.length = (c.2.length + 1) % n := by
      rw [absorbOne, List.length_append, List.length_singleton]
      split
      · next h => rw [h, Nat.mod_self, List.length_nil]
      · next h => rw [Nat.mod_eq_of_lt (by omega), List.length_append, List.length_singleton]
    have hlt : (absorbOne f n c x).2.length < n := by
      rw [hone]
      exact Nat.mod_lt _ (by omega)
    have hstep : absorb f n c (x :: p) = absorb f n (absorbOne f n c x) p := rfl
    rw [hstep, ih hlt, hone, Nat.mod_add_mod, List.length_cons, Nat.add_assoc, Nat.add_comm 1]

end Ds4
