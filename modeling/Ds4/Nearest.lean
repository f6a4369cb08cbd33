import Mathlib.Algebra.Order.Field.Rat
import Mathlib.Algebra.Order.Ring.Abs
import Mathlib.Data.Int.Log
import Mathlib.Data.Rat.Floor
import Mathlib.Tactic.Linarith
import Mathlib.Tactic.Ring
import Mathlib.Tactic.NormNum
import Mathlib.Tactic.Positivity
import Mathlib.Tactic.FieldSimp

/- Rounding to the nearest member of a set, the values of a small binary format,
   and the rounding of single precision.

     `Nearest`      no member is closer; what follows on order, sign and members
     `grid p k`     the magnitude of code `k` where `p` bits are fraction, in units
                    of the least one
     `nearest_grid` a multiple of the spacing within half of it is nearest
     `f32Round`     binary32 with ties to even, as a function on exact values -/
namespace Ds4

/-! ## Nearest members -/

def Nearest (S : Set ℚ) (x v : ℚ) : Prop := v ∈ S ∧ ∀ w ∈ S, |x - v| ≤ |x - w|

namespace Nearest
variable {S : Set ℚ} {x y v w : ℚ}

theorem mono (hx : Nearest S x v) (hy : Nearest S y w) (h : x < y) : v ≤ w := by
  have h1 := hx.2 w hy.1
  have h2 := hy.2 v hx.1
  by_contra hlt
  rw [not_le] at hlt
  rw [← sq_le_sq] at h1 h2
  nlinarith

theorem self (hx : x ∈ S) (h : Nearest S x v) : v = x := by
  have h1 := h.2 x hx
  rw [sub_self, abs_zero, abs_nonpos_iff, sub_eq_zero] at h1
  exact h1.symm

theorem neg (hS : ∀ w ∈ S, -w ∈ S) (h : Nearest S x v) : Nearest S (-x) (-v) := by
  refine ⟨hS v h.1, fun w hw => ?_⟩
  have h1 := h.2 (-w) (hS w hw)
  have h2 : -x - -v = -(x - v) := by ring
  have h3 : -x - w = -(x - -w) := by ring
  rwa [h2, h3, abs_neg, abs_neg]

end Nearest

/-! ## Small formats -/

def grid (p k : Nat) : Nat := if k < 2 ^ p then k else (2 ^ p + k % 2 ^ p) * 2 ^ (k / 2 ^ p - 1)

/-- The code that many spacings into a binade, carries included. -/
theorem grid_code {p E r : Nat} (hE : 1 ≤ E) (hr : r ≤ 2 ^ (p + 1)) (hlow : E = 1 ∨ 2 ^ p ≤ r) :
    grid p ((E - 1) * 2 ^ p + r) = r * 2 ^ (E - 1) := by
  have hpos : 0 < 2 ^ p := Nat.two_pow_pos p
  have hdouble : 2 ^ (p + 1) = 2 ^ p + 2 ^ p := by rw [Nat.pow_succ]; omega
  rcases Nat.lt_or_ge r (2 ^ p) with hlt | hge
  · obtain rfl : E = 1 := hlow.resolve_right (by omega)
    simp [grid, hlt]
  obtain ⟨m, rfl⟩ := Nat.exists_eq_add_of_le hge
  obtain ⟨e, rfl⟩ := Nat.exists_eq_add_of_le hE
  have hcode : (1 + e - 1) * 2 ^ p + (2 ^ p + m) = (e + 1) * 2 ^ p + m := by
    rw [Nat.add_sub_cancel_left, Nat.succ_mul]
    omega
  have hno : ¬(e + 1) * 2 ^ p + m < 2 ^ p := by
    rw [Nat.succ_mul]
    omega
  rw [hcode, grid, if_neg hno, Nat.add_sub_cancel_left]
  rcases Nat.lt_or_ge m (2 ^ p) with hm | hm
  · rw [Nat.mul_comm (e + 1), Nat.mul_add_mod, Nat.mod_eq_of_lt hm, Nat.mul_add_div hpos, Nat.div_eq_of_lt hm,
      Nat.add_zero, Nat.add_sub_cancel]
  · obtain rfl : m = 2 ^ p := by omega
    have hcarry : (e + 1) * 2 ^ p + 2 ^ p = 2 ^ p * (e + 2) := by ring
    rw [hcarry, Nat.mul_mod_right, Nat.mul_div_cancel_left _ hpos, Nat.add_zero]
    have hexp : e + 2 - 1 = e + 1 := by omega
    rw [hexp, Nat.pow_succ]
    ring

/-- A code below a binade is below its values. -/
theorem grid_lt {p E k : Nat} (hE : 1 ≤ E) (hk : k < E * 2 ^ p) : grid p k < 2 ^ p * 2 ^ (E - 1) := by
  have hpos : 0 < 2 ^ p := Nat.two_pow_pos p
  rw [grid]
  split
  · next h => exact h.trans_le (Nat.le_mul_of_pos_right _ (Nat.two_pow_pos _))
  · next h =>
    have hdiv : k / 2 ^ p < E := (Nat.div_lt_iff_lt_mul hpos).mpr hk
    have hone : 1 ≤ k / 2 ^ p := (Nat.one_le_div_iff hpos).mpr (Nat.le_of_not_lt h)
    have hmod := Nat.mod_lt k hpos
    calc (2 ^ p + k % 2 ^ p) * 2 ^ (k / 2 ^ p - 1) < (2 * 2 ^ p) * 2 ^ (k / 2 ^ p - 1) :=
          Nat.mul_lt_mul_of_pos_right (by omega) (Nat.two_pow_pos _)
      _ = 2 ^ p * 2 ^ (k / 2 ^ p) := by
          obtain ⟨d, hd⟩ := Nat.exists_eq_add_of_le' hone
          rw [hd, Nat.add_sub_cancel, Nat.pow_succ]
          ring
      _ ≤ 2 ^ p * 2 ^ (E - 1) := Nat.mul_le_mul_left _ (Nat.pow_le_pow_right Nat.two_pos (by omega))

/-- A code of the binade or above is a multiple of its spacing. -/
theorem grid_dvd {p E k : Nat} (hk : E = 1 ∨ E * 2 ^ p ≤ k) : 2 ^ (E - 1) ∣ grid p k := by
  have hpos : 0 < 2 ^ p := Nat.two_pow_pos p
  rcases hk with rfl | hk
  · exact one_dvd _
  rw [grid]
  split
  · next h =>
    obtain rfl : E = 0 := by
      by_contra hne
      have := Nat.mul_le_mul_right (2 ^ p) (Nat.one_le_iff_ne_zero.mpr hne)
      omega
    exact one_dvd _
  · next h =>
    have hdiv : E ≤ k / 2 ^ p := (Nat.le_div_iff_mul_le hpos).mpr hk
    exact Dvd.dvd.mul_left (Nat.pow_dvd_pow 2 (by omega)) _

/-- Among multiples of a spacing one within half of it is the nearest. -/
theorem near_multiple {x q : ℚ} (hq : 0 < q) {r : ℤ} (h : |x - r * q| ≤ q / 2) (s : ℤ) :
    |x - r * q| ≤ |x - s * q| := by
  by_cases hs : s = r
  · rw [hs]
  have hgap : q ≤ |s * q - r * q| := by
    rw [← sub_mul, abs_mul, abs_of_pos hq]
    have : (1 : ℚ) ≤ |((s : ℚ) - r)| := by
      rw [← Int.cast_sub, ← Int.cast_abs]
      exact_mod_cast Int.one_le_abs (sub_ne_zero.mpr hs)
    nlinarith
  have htri : |s * q - r * q| ≤ |s * q - x| + |x - r * q| := abs_sub_le _ _ _
  rw [abs_sub_comm x (s * q)]
  linarith

/-- The magnitude nearest to a value of a binade: a multiple of its spacing within half of it. -/
theorem grid_nearest {p E : Nat} {x : ℚ} {r : Nat} (hE : 1 ≤ E)
    (hlow : E = 1 ∨ (2 : ℚ) ^ p * 2 ^ (E - 1) ≤ x) (h : |x - r * 2 ^ (E - 1)| ≤ 2 ^ (E - 1) / 2) (k : Nat) :
    |x - r * 2 ^ (E - 1)| ≤ |x - grid p k| := by
  have hq : (0 : ℚ) < 2 ^ (E - 1) := by positivity
  have hmultiple (s : ℤ) : |x - r * 2 ^ (E - 1)| ≤ |x - s * 2 ^ (E - 1)| := by
    have := near_multiple (r := (r : ℤ)) hq (by rwa [Int.cast_natCast]) s
    rwa [Int.cast_natCast] at this
  by_cases hk : E = 1 ∨ E * 2 ^ p ≤ k
  · obtain ⟨s, hs⟩ := grid_dvd hk
    have := hmultiple s
    rwa [hs, Nat.cast_mul, Nat.cast_pow, Nat.cast_ofNat, mul_comm ((2 : ℚ) ^ (E - 1)) s]
  · rw [not_or, not_le] at hk
    have hgrid : ((grid p k : Nat) : ℚ) < 2 ^ p * 2 ^ (E - 1) := by exact_mod_cast grid_lt hE hk.2
    have hbase := hlow.resolve_left hk.1
    have hlead := hmultiple (2 ^ p)
    rw [Int.cast_pow, Int.cast_ofNat, abs_of_nonneg (by linarith : 0 ≤ x - 2 ^ p * 2 ^ (E - 1))] at hlead
    rw [abs_of_pos (by linarith : 0 < x - grid p k)]
    linarith

/-- The same among the values of both signs. -/
theorem grid_nearest_signed {p : Nat} {x v : ℚ} (hx : 0 ≤ x) (hnear : ∀ k, |x - v| ≤ |x - grid p k|) (k : Nat) :
    |x - v| ≤ |x - -grid p k| := by
  have h0 := hnear 0
  have hzero : grid p 0 = 0 := if_pos (Nat.two_pow_pos p)
  rw [hzero, Nat.cast_zero, sub_zero, abs_of_nonneg hx] at h0
  have hk : (0 : ℚ) ≤ grid p k := Nat.cast_nonneg _
  rw [sub_neg_eq_add, abs_of_nonneg (by linarith : 0 ≤ x + grid p k)]
  linarith

theorem grid_strictMono {p j k : Nat} (h : j < k) : grid p j < grid p k := by
  have hpos : 0 < 2 ^ p := Nat.two_pow_pos p
  rcases Nat.lt_or_ge k (2 ^ p) with hk | hk
  · rw [grid, grid, if_pos (h.trans hk), if_pos hk]
    exact h
  have hE : 1 ≤ k / 2 ^ p := (Nat.one_le_div_iff hpos).mpr hk
  have hgrid : grid p k = (2 ^ p + k % 2 ^ p) * 2 ^ (k / 2 ^ p - 1) := if_neg (Nat.not_lt.mpr hk)
  rcases Nat.lt_or_ge j (k / 2 ^ p * 2 ^ p) with hj | hj
  · calc grid p j < 2 ^ p * 2 ^ (k / 2 ^ p - 1) := grid_lt hE hj
      _ ≤ grid p k := by
        rw [hgrid]
        exact Nat.mul_le_mul_right _ (Nat.le_add_right _ _)
  · have hdiv : j / 2 ^ p = k / 2 ^ p :=
      Nat.le_antisymm (Nat.div_le_div_right h.le) ((Nat.le_div_iff_mul_le hpos).mpr hj)
    have hjp : ¬j < 2 ^ p := by
      have := Nat.mul_le_mul_right (2 ^ p) hE
      omega
    have hmodj := Nat.div_add_mod j (2 ^ p)
    have hmodk := Nat.div_add_mod k (2 ^ p)
    rw [hgrid, grid, if_neg hjp, hdiv]
    rw [hdiv] at hmodj
    exact Nat.mul_lt_mul_of_pos_right (by omega) (Nat.two_pow_pos _)

theorem grid_inj {p j k : Nat} (h : grid p j = grid p k) : j = k := by
  rcases Nat.lt_trichotomy j k with hlt | heq | hlt
  · exact absurd h (grid_strictMono hlt).ne
  · exact heq
  · exact absurd h (grid_strictMono hlt).ne'

/-- The values of the codes below `n`, of both signs, the least of them `u`. -/
def gridValues (p n : Nat) (u : ℚ) : Set ℚ := {v | ∃ k < n, v = grid p k * u ∨ v = -(grid p k * u)}

theorem gridValues_neg {p n : Nat} {u w : ℚ} (h : w ∈ gridValues p n u) : -w ∈ gridValues p n u := by
  obtain ⟨k, hk, rfl | rfl⟩ := h
  · exact ⟨k, hk, .inr rfl⟩
  · exact ⟨k, hk, .inl (neg_neg _)⟩

theorem nearest_grid {p n E r : Nat} {x u : ℚ} (hu : 0 < u) (hx : 0 ≤ x) (hE : 1 ≤ E) (hr : r ≤ 2 ^ (p + 1))
    (hlow : E = 1 ∨ 2 ^ p ≤ r ∧ (2 : ℚ) ^ p * 2 ^ (E - 1) * u ≤ x)
    (h : |x - r * 2 ^ (E - 1) * u| ≤ 2 ^ (E - 1) * u / 2) (hn : (E - 1) * 2 ^ p + r < n) :
    Nearest (gridValues p n u) x (grid p ((E - 1) * 2 ^ p + r) * u) := by
  have hcode : grid p ((E - 1) * 2 ^ p + r) = r * 2 ^ (E - 1) := grid_code hE hr (hlow.imp_right And.left)
  have hscale (v : ℚ) : |x - v * u| = |x / u - v| * u := by
    rw [← abs_of_pos hu, ← abs_mul, abs_of_pos hu, sub_mul, div_mul_cancel₀ x hu.ne']
  have hlow' : E = 1 ∨ (2 : ℚ) ^ p * 2 ^ (E - 1) ≤ x / u := hlow.imp_right fun h => (le_div_iff₀ hu).mpr h.2
  have hnear : |x / u - r * 2 ^ (E - 1)| ≤ 2 ^ (E - 1) / 2 := by
    rw [hscale] at h
    exact le_of_mul_le_mul_right (by linarith) hu
  have hgrid := grid_nearest hE hlow' hnear
  have hsigned := grid_nearest_signed (div_nonneg hx hu.le) hgrid
  have hvalue : ((grid p ((E - 1) * 2 ^ p + r) : Nat) : ℚ) = r * 2 ^ (E - 1) := by
    rw [hcode]
    push_cast
    rfl
  refine ⟨⟨_, hn, .inl rfl⟩, ?_⟩
  rintro w ⟨k, -, rfl | rfl⟩
  · rw [hvalue, hscale, hscale]
    exact mul_le_mul_of_nonneg_right (hgrid k) hu.le
  · rw [hvalue, ← neg_mul, hscale, hscale]
    exact mul_le_mul_of_nonneg_right (hsigned k) hu.le

/-! ## Single precision -/

/-- The integer nearest to a value, the even one of two. -/
def roundHalfEven (x : ℚ) : ℤ :=
  let rest := x - ⌊x⌋
  if rest < 1 / 2 then ⌊x⌋ else if 1 / 2 < rest then ⌊x⌋ + 1 else if ⌊x⌋ % 2 = 0 then ⌊x⌋ else ⌊x⌋ + 1

/-- The exponent of the last place of a value. -/
def lastPlace (x : ℚ) : ℤ := max (Int.log 2 |x| - 23) (-149)

/-- A value rounded to single precision, its exponent unbounded above. -/
def f32Round (x : ℚ) : ℚ := roundHalfEven (x / 2 ^ lastPlace x) * 2 ^ lastPlace x

/-- A value single precision holds, its exponent unbounded above. -/
def IsF32 (x : ℚ) : Prop := ∃ n e : ℤ, |n| < 2 ^ 24 ∧ -149 ≤ e ∧ x = n * 2 ^ e

theorem roundHalfEven_intCast (n : ℤ) : roundHalfEven n = n := by
  simp [roundHalfEven]

theorem roundHalfEven_le {x : ℚ} {n : ℤ} (h : x ≤ n) : roundHalfEven x ≤ n := by
  have hfloor : ⌊x⌋ ≤ n := Int.floor_le_iff.mpr (by linarith)
  rcases hfloor.lt_or_eq with hlt | heq
  · rw [roundHalfEven]
    split_ifs <;> omega
  · have hrest : x - ⌊x⌋ < 1 / 2 := by
      rw [heq]
      linarith
    rw [roundHalfEven, if_pos hrest, heq]

theorem le_roundHalfEven {x : ℚ} {n : ℤ} (h : (n : ℚ) ≤ x) : n ≤ roundHalfEven x := by
  have hfloor : n ≤ ⌊x⌋ := Int.le_floor.mpr h
  rw [roundHalfEven]
  split_ifs <;> omega

/-- A value that is a multiple of its last place is kept. -/
theorem f32Round_multiple {x : ℚ} {n : ℤ} (h : x = n * 2 ^ lastPlace x) : f32Round x = x := by
  have hpos : (0 : ℚ) < 2 ^ lastPlace x := zpow_pos two_pos _
  have hquot : x / 2 ^ lastPlace x = n := by
    rw [div_eq_iff hpos.ne']
    exact h
  rw [f32Round, hquot, roundHalfEven_intCast]
  exact h.symm

theorem IsF32.lastPlace_le {n e : ℤ} (hn : |n| < 2 ^ 24) (he : -149 ≤ e) (hx : n ≠ 0) : lastPlace (n * 2 ^ e) ≤ e := by
  have hpow : (0 : ℚ) < 2 ^ e := zpow_pos two_pos _
  have habs : |(n : ℚ) * 2 ^ e| = |(n : ℚ)| * 2 ^ e := by rw [abs_mul, abs_of_pos hpow]
  have hpos : (0 : ℚ) < |(n : ℚ) * 2 ^ e| := by
    rw [habs]
    exact mul_pos (abs_pos.mpr (by exact_mod_cast hx)) hpow
  have hlt : |(n : ℚ) * 2 ^ e| < 2 ^ (24 + e) := by
    have hn' : |(n : ℚ)| < 2 ^ (24 : ℤ) := by
      rw [← Int.cast_abs]
      exact_mod_cast hn
    rw [habs, zpow_add₀ two_ne_zero]
    exact mul_lt_mul_of_pos_right hn' hpow
  have hlog := (Int.lt_zpow_iff_log_lt one_lt_two hpos).mp (by exact_mod_cast hlt)
  rw [lastPlace]
  omega

/-- Single precision is kept. -/
theorem IsF32.round {x : ℚ} (h : IsF32 x) : f32Round x = x := by
  obtain ⟨n, e, hn, he, rfl⟩ := h
  by_cases hzero : n = 0
  · subst hzero
    simp [f32Round, roundHalfEven]
  have hle := IsF32.lastPlace_le hn he hzero
  generalize hu : lastPlace (n * 2 ^ e) = u at hle
  obtain ⟨d, hd⟩ := Int.le.dest hle
  refine f32Round_multiple (n := n * 2 ^ d) ?_
  rw [hu, ← hd, zpow_add₀ two_ne_zero, zpow_natCast]
  push_cast
  ring

theorem IsF32.mul_two_pow {x : ℚ} (h : IsF32 x) (k : Nat) : IsF32 (x * 2 ^ k) := by
  obtain ⟨n, e, hn, he, rfl⟩ := h
  refine ⟨n, e + k, hn, by omega, ?_⟩
  rw [zpow_add₀ two_ne_zero, zpow_natCast, mul_assoc]

theorem lastPlace_eq {x : ℚ} {j : ℤ} (hj : -126 ≤ j) (hlow : 2 ^ j ≤ x) (hhigh : x < 2 ^ (j + 1)) :
    lastPlace x = j - 23 := by
  have hpos : (0 : ℚ) < x := (zpow_pos two_pos j).trans_le hlow
  have h1 := (Int.zpow_le_iff_le_log one_lt_two hpos).mp (by exact_mod_cast hlow)
  have h2 := (Int.lt_zpow_iff_log_lt one_lt_two hpos).mp (by exact_mod_cast hhigh)
  rw [lastPlace, abs_of_pos hpos]
  omega

/-- Between multiples of the last place a rounding stays between them. -/
theorem f32Round_between {x : ℚ} {a b : ℤ} (ha : a * 2 ^ lastPlace x ≤ x) (hb : x ≤ b * 2 ^ lastPlace x) :
    a * 2 ^ lastPlace x ≤ f32Round x ∧ f32Round x ≤ b * 2 ^ lastPlace x := by
  have hpos : (0 : ℚ) < 2 ^ lastPlace x := zpow_pos two_pos _
  have h1 := le_roundHalfEven ((le_div_iff₀ hpos).mpr ha)
  have h2 := roundHalfEven_le ((div_le_iff₀ hpos).mpr hb)
  exact ⟨mul_le_mul_of_nonneg_right (by exact_mod_cast h1) hpos.le,
    mul_le_mul_of_nonneg_right (by exact_mod_cast h2) hpos.le⟩

/-- Single precision has at most 24 places. -/
theorem IsF32.places {x : ℚ} (h : IsF32 x) {j : ℤ} (hj : 2 ^ j ≤ x) : ∃ n : ℤ, x = n * 2 ^ (j - 23) := by
  obtain ⟨n, e, hn, he, rfl⟩ := h
  have hexp : j - 23 ≤ e := by
    by_contra hlt
    rw [not_le] at hlt
    have hn' : (n : ℚ) < 2 ^ (24 : ℤ) := by exact_mod_cast (le_abs_self n).trans_lt hn
    have hup : (n : ℚ) * 2 ^ e < 2 ^ (24 + e) := by
      rw [zpow_add₀ two_ne_zero]
      exact mul_lt_mul_of_pos_right hn' (zpow_pos two_pos _)
    have hle : (2 : ℚ) ^ (24 + e) ≤ 2 ^ j := zpow_le_zpow_right₀ one_le_two (by omega)
    linarith
  obtain ⟨k, hk⟩ := Int.le.dest hexp
  refine ⟨n * 2 ^ k, ?_⟩
  rw [← hk, zpow_add₀ two_ne_zero _ (k : ℤ), zpow_natCast]
  push_cast
  ring

/-- Above one half the sum that a round-half-up takes the floor of is rounded within its floor. -/
theorem floor_round_half {y : ℚ} (hy : IsF32 y) (hlow : 1 / 2 ≤ y) (hhigh : y < 2 ^ 21) :
    ⌊f32Round (y + 1 / 2)⌋ = ⌊y + 1 / 2⌋ := by
  generalize hz : y + 1 / 2 = z
  have hzpos : 0 < z := by linarith
  have hpow := Int.zpow_log_le_self (R := ℚ) one_lt_two hzpos
  have hpow' := Int.lt_zpow_succ_log_self (R := ℚ) one_lt_two z
  generalize hj : Int.log 2 z = j at hpow hpow'
  rw [Nat.cast_ofNat] at hpow hpow'
  have hj0 : 0 ≤ j := by
    rw [← hj, ← Int.zpow_le_iff_le_log one_lt_two hzpos, zpow_zero]
    linarith
  have hj22 : j ≤ 21 := by
    have hlt : z < (2 : ℕ) ^ (22 : ℤ) := by
      norm_num
      linarith
    have := (Int.lt_zpow_iff_log_lt one_lt_two hzpos).mp hlt
    omega
  have hlast := lastPlace_eq (by omega) hpow hpow'
  obtain ⟨d, rfl⟩ := Int.eq_ofNat_of_zero_le hj0
  obtain ⟨c, hc⟩ := Int.le.dest hj22
  have hhalf : (1 / 2 : ℚ) = (2 ^ (c + 1) : ℤ) * 2 ^ ((d : ℤ) - 23) := by
    have hexp : (d : ℤ) - 23 = -((c + 2 : ℕ) : ℤ) := by push_cast; omega
    rw [hexp, zpow_neg, zpow_natCast, pow_succ, pow_succ]
    push_cast
    rw [pow_succ]
    field_simp
  by_cases hbase : (2 : ℚ) ^ (d : ℤ) ≤ y
  · obtain ⟨n, rfl⟩ := hy.places hbase
    have hmultiple : z = (n + 2 ^ (c + 1) : ℤ) * 2 ^ lastPlace z := by
      rw [hlast, ← hz, hhalf]
      push_cast
      ring
    rw [f32Round_multiple hmultiple]
  · rw [not_le] at hbase
    have hone : (2 : ℚ) ^ (d : ℤ) = (2 ^ 23 : ℤ) * 2 ^ ((d : ℤ) - 23) := by
      rw [zpow_sub₀ two_ne_zero]
      push_cast
      norm_num
      ring
    have hround := f32Round_between (x := z) (a := 2 ^ 23) (b := 2 ^ 23 + 2 ^ (c + 1))
      (by rw [hlast, ← hone]; exact hpow)
      (by rw [hlast, Int.cast_add, add_mul, ← hone, ← hhalf]; linarith)
    rw [hlast, Int.cast_add, add_mul, ← hone, ← hhalf] at hround
    have hint : (2 : ℚ) ^ (d : ℤ) = ((2 ^ d : ℤ) : ℚ) := by
      rw [zpow_natCast]
      push_cast
      rfl
    rw [hint] at hround hpow hbase
    have h1 : ⌊f32Round z⌋ = 2 ^ d := Int.floor_eq_iff.mpr ⟨hround.1, by linarith⟩
    have h2 : ⌊z⌋ = 2 ^ d := Int.floor_eq_iff.mpr ⟨hpow, by linarith⟩
    rw [h1, h2]

/-- Below one half the sum is rounded up to one from half a last place below. -/
theorem floor_round_small {y : ℚ} (hlow : 0 ≤ y) (hhigh : y < 1 / 2) :
    ⌊f32Round (y + 1 / 2)⌋ = if 1 / 2 - 1 / 2 ^ 25 ≤ y then 1 else 0 := by
  generalize hz : y + 1 / 2 = z
  have hlast : lastPlace z = -24 := by
    have := lastPlace_eq (x := z) (j := -1) (by omega) (by norm_num; linarith) (by norm_num; linarith)
    omega
  have hscale : z / 2 ^ lastPlace z = z * 2 ^ 24 := by
    rw [hlast]
    norm_num
    ring
  have hround : f32Round z = roundHalfEven (z * 2 ^ 24) / 2 ^ 24 := by
    rw [f32Round, hscale, hlast]
    norm_num
    ring
  rw [hround]
  split
  · next h =>
    have hfloor : ⌊z * 2 ^ 24⌋ = 2 ^ 24 - 1 := by
      rw [Int.floor_eq_iff]
      push_cast
      constructor <;> linarith
    have hup : roundHalfEven (z * 2 ^ 24) = 2 ^ 24 := by
      have hge : ¬z * 2 ^ 24 - ((2 ^ 24 - 1 : ℤ) : ℚ) < 1 / 2 := by
        push_cast
        linarith
      rw [roundHalfEven, hfloor]
      simp only [if_neg hge]
      split <;> rfl
    rw [hup]
    norm_num
  · next h =>
    have hlt : roundHalfEven (z * 2 ^ 24) ≤ 2 ^ 24 - 1 := by
      have hfloor : ⌊z * 2 ^ 24⌋ ≤ 2 ^ 24 - 1 := by
        rw [Int.floor_le_iff]
        push_cast
        linarith
      rcases hfloor.lt_or_eq with hlt | heq
      · rw [roundHalfEven]
        split_ifs <;> omega
      · have hrest : z * 2 ^ 24 - ⌊z * 2 ^ 24⌋ < 1 / 2 := by
          rw [heq]
          push_cast
          linarith
        rw [roundHalfEven, if_pos hrest]
        exact hfloor
    have hge : 0 ≤ roundHalfEven (z * 2 ^ 24) := le_roundHalfEven (by push_cast; linarith)
    rw [Int.floor_eq_iff]
    have hlt' : (roundHalfEven (z * 2 ^ 24) : ℚ) ≤ 2 ^ 24 - 1 := by exact_mod_cast hlt
    have hge' : (0 : ℚ) ≤ roundHalfEven (z * 2 ^ 24) := by exact_mod_cast hge
    constructor
    · push_cast
      positivity
    · push_cast
      rw [div_lt_iff₀ (by norm_num)]
      linarith

end Ds4
