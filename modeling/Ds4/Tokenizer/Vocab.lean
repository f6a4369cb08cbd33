import Mathlib.Algebra.Group.Nat.Defs
import Ds4.Bytes
import Ds4.OpenAddressing

/- The vocabulary of ds4.c: two open-addressed hash tables over the token
   strings and the merge pairs of a GGUF file, and the ids of the special tokens.

   Correspondence (C ↔ Lean):
     `hash_bytes`, `next_pow2`            ↔ `hashBytes`, `nextPow2`
     `table_init`, `table_put`, `table_get` ↔ `tableInit`, `tablePut`, `tableGet`
     `vocab_load`, `vocab_lookup`         ↔ `vocabLoad`, `vocabLookup`
   A dying `ds4_die` or `exit(1)` is `none`. A table is generic open addressing
   (`OpenAddressing`) at C's probe sequence: home `hash & mask`, step
   `(i + 1) & mask`, with a power of two of slots. -/
namespace Ds4
open Bytes

/-- FNV-style 64-bit hash. -/
def hashBytes (s : Bytes) : UInt64 :=
  s.foldl (fun h p => (h ^^^ p.toUInt64) * 1099511628211) 1469598103934665603

/-- The doubling loop of `next_pow2`, at most `fuel` times. -/
def pow2From (n : Nat) : Nat → Nat → Nat
  | 0, p => p
  | fuel + 1, p => if p < n then pow2From n fuel (2 * p) else p

/-- The least power of two that is at least `n`: `n` doublings are enough. -/
def nextPow2 (n : Nat) : Nat := pow2From n n 1

theorem pow2From_spec (n : Nat) : ∀ (fuel k : Nat), n ≤ fuel + 2 ^ k →
    ∃ m, pow2From n fuel (2 ^ k) = 2 ^ m ∧ n ≤ 2 ^ m
  | 0, k, h => ⟨k, rfl, by omega⟩
  | fuel + 1, k, h => by
    simp only [pow2From]
    split
    · rw [Nat.mul_comm, ← Nat.pow_succ]
      refine pow2From_spec n fuel (k + 1) ?_
      have := Nat.one_le_two_pow (n := k)
      rw [Nat.pow_succ]; omega
    · exact ⟨k, rfl, by omega⟩

theorem nextPow2_spec (n : Nat) : ∃ m, nextPow2 n = 2 ^ m ∧ n ≤ 2 ^ m :=
  pow2From_spec n n 0 (by omega)

/-- `str_i32_table`. `used` is kept by the source and read by nothing. -/
structure StrI32Table where
  cap : Nat
  entry : OpenAddressing.Slots Bytes Int

def tableInit (expected : Nat) : StrI32Table :=
  { cap := nextPow2 (expected * 2 + 16), entry := fun _ => none }

/-- The walk of `table_put` and `table_get`: the first slot from `i` on that is
    free or holds `key`. -/
def tableWalk (t : StrI32Table) (key : Bytes) : Nat → Nat → Option Nat
  | 0, _ => none
  | fuel + 1, i =>
    match t.entry i with
    | none => some i
    | some e => if e.1 = key then some i else tableWalk t key fuel ((i + 1) &&& (t.cap - 1))

def tableFind (t : StrI32Table) (key : Bytes) : Option Nat :=
  tableWalk t key t.cap ((hashBytes key).toNat &&& (t.cap - 1))

def tablePut (t : StrI32Table) (key : Bytes) (value : Int) : StrI32Table :=
  match tableFind t key with
  | some i => { t with entry := Function.update t.entry i (some (key, value)) }
  | none => t

def tableGet (t : StrI32Table) (key : Bytes) : Option Int :=
  if t.cap = 0 then none
  else (tableFind t key).bind fun i => (t.entry i).map Prod.snd

/-! The C table is open addressing at the masked probe sequence. -/

theorem land_mask (i m : Nat) : i &&& (2 ^ m - 1) = i % 2 ^ m := Nat.and_two_pow_sub_one_eq_mod i m

theorem iterate_mask (m : Nat) : ∀ (d i : Nat), i < 2 ^ m →
    (fun i => (i + 1) &&& (2 ^ m - 1))^[d] i = (i + d) % 2 ^ m
  | 0, i, h => by simp [Nat.mod_eq_of_lt h]
  | d + 1, i, h => by
    rw [Function.iterate_succ_apply', iterate_mask m d i h, land_mask, Nat.mod_add_mod]
    congr 1

/-- The probe sequence of a table of `2 ^ m` slots. -/
def maskProbe (m : Nat) : OpenAddressing.Probe Bytes where
  cap := 2 ^ m
  home key := (hashBytes key).toNat &&& (2 ^ m - 1)
  step i := (i + 1) &&& (2 ^ m - 1)
  home_lt _ := by rw [land_mask]; exact Nat.mod_lt _ (Nat.two_pow_pos m)
  step_lt _ _ := by rw [land_mask]; exact Nat.mod_lt _ (Nat.two_pow_pos m)
  visits i j hi hj := by
    refine ⟨(j + (2 ^ m - i)) % 2 ^ m, Nat.mod_lt _ (Nat.two_pow_pos m), ?_⟩
    rw [iterate_mask m _ i hi, Nat.add_mod_mod, show i + (j + (2 ^ m - i)) = j + 2 ^ m by omega,
      Nat.add_mod_right, Nat.mod_eq_of_lt hj]

theorem tableWalk_eq {t : StrI32Table} {m : Nat} (hc : t.cap = 2 ^ m) (key : Bytes) :
    ∀ (n i : Nat), tableWalk t key n i = OpenAddressing.seek (maskProbe m) t.entry key n i
  | 0, _ => rfl
  | n + 1, i => by
    simp only [tableWalk, OpenAddressing.seek]
    cases t.entry i with
    | none => rfl
    | some e =>
      simp only
      rw [tableWalk_eq hc key n, hc]
      rfl

theorem tableFind_eq {t : StrI32Table} {m : Nat} (hc : t.cap = 2 ^ m) (key : Bytes) :
    tableFind t key = OpenAddressing.search (maskProbe m) t.entry key := by
  rw [tableFind, tableWalk_eq hc, hc]
  rfl

theorem tablePut_entry {t : StrI32Table} {m : Nat} (hc : t.cap = 2 ^ m) (key : Bytes) (v : Int) :
    (tablePut t key v).cap = 2 ^ m ∧
      (tablePut t key v).entry = OpenAddressing.put (maskProbe m) t.entry key v := by
  unfold tablePut OpenAddressing.put
  rw [tableFind_eq hc]
  cases OpenAddressing.search (maskProbe m) t.entry key <;> exact ⟨hc, rfl⟩

theorem tableGet_eq {t : StrI32Table} {m : Nat} (hc : t.cap = 2 ^ m) (key : Bytes) :
    tableGet t key = OpenAddressing.get (maskProbe m) t.entry key := by
  have hpos : t.cap ≠ 0 := by rw [hc]; exact Nat.ne_of_gt (Nat.two_pow_pos m)
  rw [tableGet, if_neg hpos, tableFind_eq hc]
  rfl

/-- A table filled from a list of pairs, as `vocab_load` fills both of its own. -/
def tableFill (es : List (Bytes × Int)) : StrI32Table :=
  es.foldl (fun t e => tablePut t e.1 e.2) (tableInit es.length)

theorem foldl_tablePut {m : Nat} : ∀ (es : List (Bytes × Int)) (t : StrI32Table), t.cap = 2 ^ m →
    (es.foldl (fun t e => tablePut t e.1 e.2) t).cap = 2 ^ m ∧
      (es.foldl (fun t e => tablePut t e.1 e.2) t).entry =
        OpenAddressing.putAll (maskProbe m) t.entry es
  | [], _, hc => ⟨hc, rfl⟩
  | e :: es, t, hc => by
    obtain ⟨hc', he⟩ := tablePut_entry hc e.1 e.2
    simp only [List.foldl_cons, OpenAddressing.putAll, ← he]
    exact foldl_tablePut es _ hc'

/-- What a filled table answers was put for that key, and every key put is answered. -/
theorem tableFill_get (es : List (Bytes × Int)) (key : Bytes) :
    (∀ v, tableGet (tableFill es) key = some v → (key, v) ∈ es) ∧
      ((∃ v, (key, v) ∈ es) → ∃ v, tableGet (tableFill es) key = some v) := by
  obtain ⟨m, hm, hle⟩ := nextPow2_spec (es.length * 2 + 16)
  obtain ⟨hc, hentry⟩ := foldl_tablePut es (tableInit es.length) (m := m) hm
  have hempty : OpenAddressing.occupied (maskProbe m) (tableInit es.length).entry = ∅ := by
    simp [OpenAddressing.occupied, tableInit]
  have hr : OpenAddressing.Reached (maskProbe m) (tableInit es.length).entry := by
    intro i e _ h; simp [tableInit] at h
  have hroom : (OpenAddressing.occupied (maskProbe m) (tableInit es.length).entry).card +
      es.length < (maskProbe m).cap := by
    rw [hempty]
    show 0 + es.length < 2 ^ m
    omega
  obtain ⟨hfrom, hto⟩ := OpenAddressing.putAll_get (maskProbe m) es _ hr hroom key
  rw [← hentry, ← tableGet_eq hc] at hfrom hto
  have hnone : OpenAddressing.get (maskProbe m) (tableInit es.length).entry key = none := by
    simp [OpenAddressing.get, tableInit]
  rw [hnone] at hfrom hto
  refine ⟨fun v h => ?_, fun h => Option.isSome_iff_exists.mp (hto (.inl h))⟩
  rcases hfrom v h with hm | hn
  · exact hm
  · cases hn

end Ds4
