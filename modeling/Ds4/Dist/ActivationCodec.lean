import Ds4.Nearest
import Ds4.Engine.Half

/- The activation codecs of ds4_distributed.c on exact values.

   Correspondence (C ↔ Lean):
     `dist_f32_to_f16`, `dist_f16_to_f32`           ↔ `distF32ToF16`, `distF16ToF32`
     `dist_f32_to_f8_e4m3`, `dist_f8_e4m3_to_f32`   ↔ `distF32ToF8E4m3`, `distF8E4m3ToF32`
   The first two work on bit patterns and have the text of `f32_to_f16` and
   `f16_to_f32` of ds4.c. The last two compute with floats: each operation is
   `f32Round` of the exact result, `frexpf` and `ldexpf` are exact powers of two.

   What is proved: the values of a format are a `grid` of both signs; the 16-bit
   round trip is the nearest of them for every finite float up to the largest, and
   so is the 8-bit one but for two intervals; both keep order, signs and members. -/
namespace Ds4.Dist
open Ds4 Engine

/-! ## Finite floats -/

/-- A finite single-precision float, by its bits. -/
structure FiniteF32 where
  bits : Nat
  lt : bits < 2 ^ 32
  finite : bits / 2 ^ 23 % 2 ^ 8 ≠ 255

/-- The magnitude in units of the least subnormal. -/
def f32Mag (bits : Nat) : Nat :=
  let exp := bits / 2 ^ 23 % 2 ^ 8
  let mant := bits % 2 ^ 23
  if exp = 0 then mant else (2 ^ 23 + mant) * 2 ^ (exp - 1)

/-- `fabsf`. -/
def f32Abs (bits : Nat) : ℚ := f32Mag bits / 2 ^ 149

def withSign (s : Nat) (a : ℚ) : ℚ := if s = 1 then -a else a

def f32Value (bits : Nat) : ℚ := withSign (bits / 2 ^ 31 % 2) (f32Abs bits)

namespace FiniteF32

def value (x : FiniteF32) : ℚ := f32Value x.bits

/-- The sign bit flipped. -/
def neg (x : FiniteF32) : FiniteF32 where
  bits := if x.bits < 2 ^ 31 then x.bits + 2 ^ 31 else x.bits - 2 ^ 31
  lt := by
    have := x.lt
    split <;> omega
  finite := by
    have := x.lt
    have := x.finite
    split <;> omega

end FiniteF32

/-! ## The codecs -/

def distF32ToF16 (bits : Nat) : Nat := f32ToF16 bits

def distF16ToF32 (h : Nat) : Nat := f16ToF32 h

def distF32ToF8E4m3 (bits : Nat) : Nat :=
  let sign := if bits / 2 ^ 31 % 2 = 1 then 0x80 else 0
  let a := f32Abs bits
  if a = 0 then sign
  else if bits / 2 ^ 23 % 2 ^ 8 = 255 ∨ 240 ≤ a then sign + 0x77
  else if a < 1 / 512 then
    let mant := ⌊f32Round (f32Round (a * 512) + 1 / 2)⌋
    if mant ≤ 0 then sign
    else if mant > 7 then sign + 7
    else sign + mant.toNat
  else
    let exp2 := Int.log 2 a + 1
    let exp := exp2 - 1 + 7
    if exp ≤ 0 then
      let mant := ⌊f32Round (f32Round (a * 512) + 1 / 2)⌋
      if mant ≤ 0 then sign
      else if mant > 7 then sign + 7
      else sign + mant.toNat
    else
      let base : ℚ := 2 ^ (exp2 - 1)
      let mant := ⌊f32Round (f32Round (f32Round (f32Round (a / base) - 1) * 8) + 1 / 2)⌋
      -- the carry into the next binade
      let carried := if mant ≥ 8 then (0, exp + 1) else (mant, exp)
      if carried.2 ≥ 15 then sign + 0x77 else sign + carried.2.toNat * 2 ^ 3 + carried.1.toNat

def distF8E4m3ToF32 (h : Nat) : ℚ :=
  let sign : ℚ := if h / 2 ^ 7 % 2 = 1 then -1 else 1
  let exp : Nat := h / 2 ^ 3 % 2 ^ 4
  let mant : Nat := h % 2 ^ 3
  if exp = 0 then f32Round (f32Round (sign * mant) * (1 / 512))
  else if exp ≥ 15 then f32Round (sign * 240)
  else f32Round (sign * f32Round (f32Round (1 + f32Round (mant / 8)) * 2 ^ ((exp : ℤ) - 7)))

/-! ## What a receiver gets -/

/-- The values of a format: those of its finite codes. -/
def f16Values : Set ℚ := {v | ∃ h < 2 ^ 16, h / 2 ^ 10 % 2 ^ 5 ≠ 31 ∧ v = f32Value (distF16ToF32 h)}

def f8Values : Set ℚ := {v | ∃ h < 2 ^ 8, v = distF8E4m3ToF32 h}

def f16RoundTrip (x : FiniteF32) : ℚ := f32Value (distF16ToF32 (distF32ToF16 x.bits))

def f8RoundTrip (x : FiniteF32) : ℚ := distF8E4m3ToF32 (distF32ToF8E4m3 x.bits)

theorem withSign_neg {s : Nat} (hs : s < 2) (a : ℚ) : withSign (1 - s) a = -withSign s a := by
  obtain rfl | rfl : s = 0 ∨ s = 1 := by omega
  · rfl
  · exact (neg_neg a).symm

theorem withSign_withSign (s : Nat) (a : ℚ) : withSign s (withSign s a) = a := by
  rw [withSign, withSign]
  split
  · exact neg_neg a
  · rfl

theorem f32Mag_eq (bits : Nat) : f32Mag bits = grid 23 (bits % 2 ^ 31) := by
  have hexp : bits % 2 ^ 31 / 2 ^ 23 = bits / 2 ^ 23 % 2 ^ 8 := by omega
  have hmant : bits % 2 ^ 31 % 2 ^ 23 = bits % 2 ^ 23 := by omega
  rw [f32Mag, grid, hexp, hmant]
  by_cases h : bits / 2 ^ 23 % 2 ^ 8 = 0
  · rw [if_pos h, if_pos (by omega)]
    omega
  · rw [if_neg h, if_neg (by omega)]

theorem f32Abs_nonneg (bits : Nat) : 0 ≤ f32Abs bits := by
  rw [f32Abs]
  positivity

theorem f32Abs_inj {b c : Nat} (hb : b < 2 ^ 31) (hc : c < 2 ^ 31) (h : f32Abs b = f32Abs c) : b = c := by
  rw [f32Abs, f32Abs, div_left_inj' (by positivity), Nat.cast_inj, f32Mag_eq, f32Mag_eq, Nat.mod_eq_of_lt hb,
    Nat.mod_eq_of_lt hc] at h
  exact grid_inj h

theorem isF32_abs (bits : Nat) : IsF32 (f32Abs bits) := by
  have hmant : bits % 2 ^ 23 < 2 ^ 23 := Nat.mod_lt _ (Nat.two_pow_pos _)
  rw [f32Abs, f32Mag]
  generalize bits % 2 ^ 23 = m at hmant
  generalize bits / 2 ^ 23 % 2 ^ 8 = e
  split
  · refine ⟨m, -149, ?_, le_refl _, ?_⟩
    · rw [abs_of_nonneg (by positivity)]
      omega
    · rw [zpow_neg, div_eq_mul_inv]
      norm_cast
  · refine ⟨(2 ^ 23 + m : ℕ), (e - 1 : ℕ) - 149, ?_, by omega, ?_⟩
    · rw [abs_of_nonneg (by positivity)]
      omega
    · rw [zpow_sub₀ two_ne_zero, zpow_natCast]
      push_cast
      norm_num
      ring

/-! ## 16 bits -/

theorem f32ToF16_sign {s b : Nat} (hs : s < 2) (hb : b < 2 ^ 31) :
    f32ToF16 (s * 2 ^ 31 + b) = s * 2 ^ 15 + f32ToF16 b := by
  have h1 : (s * 2 ^ 31 + b) / 2 ^ 31 % 2 = s := by omega
  have h2 : b / 2 ^ 31 % 2 = 0 := by omega
  have h3 : (s * 2 ^ 31 + b) / 2 ^ 23 % 2 ^ 8 = b / 2 ^ 23 % 2 ^ 8 := by omega
  have h4 : (s * 2 ^ 31 + b) % 2 ^ 23 = b % 2 ^ 23 := by omega
  have h5 : ((s * 2 ^ 31 + b : ℕ) : ℤ) / 2 ^ 23 % 2 ^ 8 = (b : ℤ) / 2 ^ 23 % 2 ^ 8 := by omega
  simp only [f32ToF16, h1, h2, h3, h4, h5]
  split_ifs <;> omega

/-- The half-up step of a shift, ties to even, as the source takes it. -/
def roundShift (m shift : Nat) : Nat :=
  if m / 2 ^ (shift - 1) % 2 ≠ 0 ∧ (m % 2 ^ (shift - 1) ≠ 0 ∨ m / 2 ^ shift % 2 = 1) then m / 2 ^ shift + 1
  else m / 2 ^ shift

/-- It is within half of what was shifted out. -/
theorem roundShift_near (m t : Nat) : 2 ^ (t + 1) * roundShift m (t + 1) ≤ m + 2 ^ t ∧
    m ≤ 2 ^ (t + 1) * roundShift m (t + 1) + 2 ^ t := by
  have h1 := Nat.div_add_mod m (2 ^ t)
  have h2 := Nat.div_add_mod (m / 2 ^ t) 2
  have hsticky := Nat.mod_lt m (Nat.two_pow_pos t)
  have hbit := Nat.mod_lt (m / 2 ^ t) Nat.two_pos
  rw [roundShift, Nat.add_sub_cancel, Nat.pow_succ, ← Nat.div_div_eq_div_mul]
  generalize m / 2 ^ t % 2 = bit at *
  generalize m % 2 ^ t = sticky at *
  generalize m / 2 ^ t / 2 = half at *
  generalize 2 ^ t = d at *
  rw [← h2, Nat.mul_add, ← Nat.mul_assoc] at h1
  subst h1
  obtain rfl | rfl : bit = 0 ∨ bit = 1 := by omega
  · simp only [ne_eq, not_true_eq_false, false_and, if_false]
    omega
  · split
    · rw [Nat.mul_add]
      omega
    · omega

theorem roundShift_le {m n t : Nat} (h : m ≤ 2 ^ (t + 1) * n) : roundShift m (t + 1) ≤ n := by
  by_contra hlt
  have hnear := (roundShift_near m t).1
  have hmul := Nat.mul_le_mul_left (2 ^ (t + 1)) (Nat.not_le.mp hlt)
  have hpos := Nat.two_pow_pos t
  rw [Nat.mul_succ] at hmul
  rw [Nat.pow_succ] at hnear hmul h
  omega

theorem le_roundShift {m n t : Nat} (h : 2 ^ (t + 1) * n ≤ m) : n ≤ roundShift m (t + 1) := by
  have hdiv : n ≤ m / 2 ^ (t + 1) := (Nat.le_div_iff_mul_le (Nat.two_pow_pos _)).mpr (by rwa [Nat.mul_comm])
  rw [roundShift]
  split <;> omega

/-- The same as a value. -/
theorem roundShift_value (m t : Nat) : |(m : ℚ) / 2 ^ (t + 1) - roundShift m (t + 1)| ≤ 1 / 2 := by
  obtain ⟨h1, h2⟩ := roundShift_near m t
  have hpow : (0 : ℚ) < 2 ^ (t + 1) := by positivity
  have h1' : (2 : ℚ) ^ (t + 1) * roundShift m (t + 1) ≤ m + 2 ^ t := by exact_mod_cast h1
  have h2' : (m : ℚ) ≤ 2 ^ (t + 1) * roundShift m (t + 1) + 2 ^ t := by exact_mod_cast h2
  have hhalf : (2 : ℚ) ^ t = 2 ^ (t + 1) / 2 := by rw [pow_succ]; ring
  rw [hhalf] at h1' h2'
  have hscale : (m : ℚ) / 2 ^ (t + 1) - roundShift m (t + 1) = (m - 2 ^ (t + 1) * roundShift m (t + 1)) / 2 ^ (t + 1) := by
    field_simp
  rw [hscale, abs_div, abs_of_pos hpow, div_le_iff₀ hpow, abs_le]
  constructor <;> linarith

theorem f16ToF32_mag : ∀ m < 1024, f32Mag (f16ToF32 m) = m * 2 ^ 125 ∧ f16ToF32 m < 2 ^ 31 := by
  decide +kernel

/-- What a half is worth. -/
theorem f16_decode {h : Nat} (hlt : h < 2 ^ 16) (hfin : h / 2 ^ 10 % 2 ^ 5 ≠ 31) :
    f32Value (f16ToF32 h) = withSign (h / 2 ^ 15) (grid 10 (h % 2 ^ 15) * (1 / 2 ^ 24)) := by
  have hbits : ∃ b < 2 ^ 31, f16ToF32 h = h / 2 ^ 15 * 2 ^ 31 + b ∧ f32Mag b = grid 10 (h % 2 ^ 15) * 2 ^ 125 := by
    by_cases hexp : h / 2 ^ 10 % 2 ^ 5 = 0
    · obtain ⟨hmag, hlt'⟩ := f16ToF32_mag (h % 2 ^ 10) (by omega)
      have hcode : h % 2 ^ 15 = h % 2 ^ 10 := by omega
      refine ⟨f16ToF32 (h % 2 ^ 10), hlt', ?_, ?_⟩
      · have h1 : h % 2 ^ 10 / 2 ^ 15 = 0 := by omega
        have h2 : h % 2 ^ 10 / 2 ^ 10 % 2 ^ 5 = 0 := by omega
        have h3 : h % 2 ^ 10 % 2 ^ 10 = h % 2 ^ 10 := by omega
        simp only [f16ToF32, hexp, h1, h2, h3, if_true]
        split_ifs <;> omega
      · rw [hmag, hcode, grid, if_pos (by omega)]
    · have hexp' : h % 2 ^ 15 / 2 ^ 10 = h / 2 ^ 10 % 2 ^ 5 := by omega
      have hmant : h % 2 ^ 15 % 2 ^ 10 = h % 2 ^ 10 := by omega
      refine ⟨(h / 2 ^ 10 % 2 ^ 5 + 127 - 15) * 2 ^ 23 + h % 2 ^ 10 * 2 ^ 13, by omega, ?_, ?_⟩
      · rw [f16ToF32, if_neg hexp, if_neg hfin, Nat.add_assoc]
      · rw [grid, if_neg (by omega), hexp', hmant]
        have he : h / 2 ^ 10 % 2 ^ 5 < 32 := by omega
        have hm : h % 2 ^ 10 < 1024 := by omega
        generalize h / 2 ^ 10 % 2 ^ 5 = e at *
        generalize h % 2 ^ 10 = m at *
        have h1 : ((e + 127 - 15) * 2 ^ 23 + m * 2 ^ 13) / 2 ^ 23 % 2 ^ 8 = e + 112 := by omega
        have h2 : ((e + 127 - 15) * 2 ^ 23 + m * 2 ^ 13) % 2 ^ 23 = m * 2 ^ 13 := by omega
        rw [f32Mag, h1, h2, if_neg (by omega)]
        obtain ⟨d, rfl⟩ := Nat.exists_eq_add_of_le' (Nat.one_le_iff_ne_zero.mpr hexp)
        rw [show d + 1 + 112 - 1 = d + 112 by omega, Nat.add_sub_cancel, Nat.pow_add]
        ring
  obtain ⟨b, hb, hbits, hmag⟩ := hbits
  have hsign : (h / 2 ^ 15 * 2 ^ 31 + b) / 2 ^ 31 % 2 = h / 2 ^ 15 := by omega
  have habs : f32Abs (h / 2 ^ 15 * 2 ^ 31 + b) = grid 10 (h % 2 ^ 15) * (1 / 2 ^ 24) := by
    have hmag' : f32Mag (h / 2 ^ 15 * 2 ^ 31 + b) = f32Mag b := by
      rw [f32Mag_eq, f32Mag_eq]
      congr 1
      omega
    rw [f32Abs, hmag', hmag]
    push_cast
    norm_num
    ring
  rw [hbits, f32Value, hsign, habs]

theorem f16Values_eq : f16Values = gridValues 10 31744 (1 / 2 ^ 24) := by
  ext v
  constructor
  · rintro ⟨h, hlt, hfin, rfl⟩
    rw [distF16ToF32, f16_decode hlt hfin, withSign]
    refine ⟨h % 2 ^ 15, by omega, ?_⟩
    split
    · exact .inr rfl
    · exact .inl rfl
  · rintro ⟨k, hk, rfl | rfl⟩
    · refine ⟨k, by omega, by omega, ?_⟩
      rw [distF16ToF32, f16_decode (by omega) (by omega), Nat.mod_eq_of_lt (by omega), Nat.div_eq_of_lt (by omega)]
      rfl
    · refine ⟨2 ^ 15 + k, by omega, by omega, ?_⟩
      rw [distF16ToF32, f16_decode (by omega) (by omega), show (2 ^ 15 + k) % 2 ^ 15 = k by omega,
        show (2 ^ 15 + k) / 2 ^ 15 = 1 by omega]
      rfl

/-- The source rounds a normal significand by the bits it drops, and its own tie test. -/
theorem normal_roundShift {e m : Nat} (he : 113 ≤ e) :
    (if m % 2 ^ 13 > 0x1000 ∨ m % 2 ^ 13 = 0x1000 ∧ ((e - 112) * 2 ^ 10 + m / 2 ^ 13) % 2 = 1 then
      (e - 112) * 2 ^ 10 + m / 2 ^ 13 + 1 else (e - 112) * 2 ^ 10 + m / 2 ^ 13) =
      (e - 113) * 2 ^ 10 + roundShift (2 ^ 23 + m) 13 := by
  have hhalf : (2 ^ 23 + m) / 2 ^ 13 = 2 ^ 10 + m / 2 ^ 13 := by omega
  have hround : (2 ^ 23 + m) / 2 ^ 12 % 2 = m % 2 ^ 13 / 2 ^ 12 := by omega
  have hrest : (2 ^ 23 + m) % 2 ^ 12 = m % 2 ^ 13 % 2 ^ 12 := by omega
  have hr : m % 2 ^ 13 < 2 ^ 13 := by omega
  rw [roundShift, Nat.add_one_sub_one, hhalf, hround, hrest]
  generalize m / 2 ^ 13 = q
  generalize m % 2 ^ 13 = r at *
  have hparity : ((e - 112) * 2 ^ 10 + q) % 2 = (2 ^ 10 + q) % 2 := by omega
  have htie : (r > 0x1000 ∨ r = 0x1000 ∧ (2 ^ 10 + q) % 2 = 1) ↔
      (r / 2 ^ 12 ≠ 0 ∧ (r % 2 ^ 12 ≠ 0 ∨ (2 ^ 10 + q) % 2 = 1)) := by omega
  simp only [hparity, htie]
  split <;> omega

/-- The code of a magnitude below `2 ^ 31`, branch by branch of the source. -/
theorem f32ToF16_eq {b : Nat} (hb : b < 2 ^ 31) : f32ToF16 b =
    let e := b / 2 ^ 23 % 2 ^ 8
    let m := 2 ^ 23 + b % 2 ^ 23
    if e < 102 then 0
    else if e ≤ 112 then roundShift m (126 - e)
    else if 143 ≤ e then if e = 255 ∧ b % 2 ^ 23 ≠ 0 then 0x7e00 else 0x7c00
    else (e - 113) * 2 ^ 10 + roundShift m 13 := by
  have hsign : b / 2 ^ 31 % 2 * 2 ^ 15 = 0 := by omega
  have hint : (b : ℤ) / 2 ^ 23 % 2 ^ 8 = (b / 2 ^ 23 % 2 ^ 8 : ℕ) := by omega
  have hm : b % 2 ^ 23 < 2 ^ 23 := by omega
  simp only [f32ToF16, hsign, hint, Nat.zero_add]
  generalize b / 2 ^ 23 % 2 ^ 8 = e
  generalize b % 2 ^ 23 = m at *
  by_cases h1 : e < 102
  · rw [if_pos (by omega), if_pos (by omega), if_pos h1]
  by_cases h2 : e ≤ 112
  · have hshift : (14 - ((e : ℤ) - 127 + 15)).toNat = 126 - e := by omega
    rw [if_pos (by omega), if_neg (by omega), if_neg h1, if_pos h2, hshift, Nat.add_comm m, roundShift]
  rw [if_neg (by omega), if_neg h1, if_neg h2]
  by_cases h3 : 143 ≤ e
  · have hbig : (e : ℤ) - 127 + 15 ≥ 31 := by omega
    simp only [if_pos hbig, h3, if_true]
  · have hexp : ((e : ℤ) - 127 + 15).toNat = e - 112 := by omega
    have hsmall : ¬(e : ℤ) - 127 + 15 ≥ 31 := by omega
    rw [if_neg hsmall, if_neg h3, hexp]
    exact normal_roundShift (by omega)

theorem f16_code {b : Nat} (hb : b < 2 ^ 31) (hmax : f32Abs b ≤ 65504) : f32ToF16 b < 31744 ∧
    Nearest (gridValues 10 31744 (1 / 2 ^ 24)) (f32Abs b) (grid 10 (f32ToF16 b) * (1 / 2 ^ 24)) := by
  have hunit : (0 : ℚ) < 1 / 2 ^ 24 := by norm_num
  have he : b / 2 ^ 23 % 2 ^ 8 < 256 := by omega
  have hm : b % 2 ^ 23 < 2 ^ 23 := by omega
  have habs : f32Abs b = f32Mag b / 2 ^ 149 := rfl
  have hcode : ∃ E r, f32ToF16 b = (E - 1) * 2 ^ 10 + r ∧ 1 ≤ E ∧ r ≤ 2 ^ 11 ∧
      (E = 1 ∨ 2 ^ 10 ≤ r ∧ (2 : ℚ) ^ 10 * 2 ^ (E - 1) * (1 / 2 ^ 24) ≤ f32Abs b) ∧
      |f32Abs b - r * 2 ^ (E - 1) * (1 / 2 ^ 24)| ≤ 2 ^ (E - 1) * (1 / 2 ^ 24) / 2 ∧ (E - 1) * 2 ^ 10 + r < 31744 := by
    rw [f32ToF16_eq hb]
    rw [f32Mag] at habs
    generalize b / 2 ^ 23 % 2 ^ 8 = e at *
    generalize b % 2 ^ 23 = m at *
    generalize f32Abs b = a at *
    dsimp only at habs ⊢
    by_cases h1 : e < 102
    · -- below half of the least value
      refine ⟨1, 0, by rw [if_pos h1]; rfl, le_refl _, Nat.zero_le _, .inl rfl, ?_, by norm_num⟩
      have hmag : (if e = 0 then m else (2 ^ 23 + m) * 2 ^ (e - 1)) ≤ 2 ^ 124 := by
        split
        · omega
        · have hpow : 2 ^ (e - 1) ≤ 2 ^ 100 := Nat.pow_le_pow_right Nat.two_pos (by omega)
          have := Nat.mul_le_mul (show 2 ^ 23 + m ≤ 2 ^ 24 by omega) hpow
          omega
      have hmag' : ((if e = 0 then m else (2 ^ 23 + m) * 2 ^ (e - 1) : ℕ) : ℚ) ≤ (2 ^ 124 : ℕ) := Nat.cast_le.mpr hmag
      rw [Nat.cast_pow, Nat.cast_ofNat] at hmag'
      generalize (if e = 0 then m else (2 ^ 23 + m) * 2 ^ (e - 1)) = n at *
      have hge : 0 ≤ a := by
        rw [habs]
        positivity
      have hle : a ≤ 2 ^ 124 / 2 ^ 149 := by
        rw [habs]
        exact div_le_div_of_nonneg_right hmag' (by positivity)
      rw [Nat.cast_zero, zero_mul, zero_mul, sub_zero, abs_of_nonneg hge]
      norm_num at hle ⊢
      linarith
    rw [if_neg (show ¬e = 0 by omega)] at habs
    by_cases h2 : e ≤ 112
    · -- the whole significand is shifted
      obtain ⟨t, ht⟩ : ∃ t, 126 - e = t + 1 := ⟨125 - e, by omega⟩
      have hbig : roundShift (2 ^ 23 + m) (t + 1) ≤ 1024 := by
        refine roundShift_le ?_
        have hpow : 2 ^ 14 ≤ 2 ^ (t + 1) := Nat.pow_le_pow_right Nat.two_pos (by omega)
        omega
      have hvalue : a = (2 ^ 23 + m : ℕ) / 2 ^ (t + 1) * (1 / 2 ^ 24) := by
        have hexp : (2 : ℚ) ^ (e - 1) * 2 ^ (t + 1) = 2 ^ 125 := by
          rw [← pow_add]
          congr 1
          omega
        rw [habs, Nat.cast_mul, Nat.cast_pow, Nat.cast_ofNat]
        field_simp
        rw [← hexp]
      have hnear := roundShift_value (2 ^ 23 + m) t
      refine ⟨1, roundShift (2 ^ 23 + m) (t + 1), ?_, le_refl _, by omega, .inl rfl, ?_, by omega⟩
      · rw [if_neg h1, if_pos h2, ht]
        omega
      · rw [hvalue, Nat.sub_self, pow_zero, mul_one, ← sub_mul, abs_mul, abs_of_pos hunit, one_mul]
        linarith
    have h3 : e ≤ 142 := by
      by_contra hbig
      have hmag : 2 ^ 23 * 2 ^ 142 ≤ (2 ^ 23 + m) * 2 ^ (e - 1) :=
        Nat.mul_le_mul (Nat.le_add_right _ _) (Nat.pow_le_pow_right Nat.two_pos (by omega))
      have hmag' : ((2 ^ 23 * 2 ^ 142 : ℕ) : ℚ) ≤ ((2 ^ 23 + m) * 2 ^ (e - 1) : ℕ) := Nat.cast_le.mpr hmag
      generalize (2 ^ 23 + m) * 2 ^ (e - 1) = n at *
      rw [habs, div_le_iff₀ (by positivity)] at hmax
      push_cast at hmag'
      norm_num at hmag' hmax
      linarith
    obtain ⟨j, rfl⟩ : ∃ j, e = 113 + j := ⟨e - 113, by omega⟩
    have hpow : (0 : ℚ) < 2 ^ j := by positivity
    have hvalue : a = (2 ^ 23 + m : ℕ) / 2 ^ 13 * (2 ^ j * (1 / 2 ^ 24)) := by
      rw [habs, show 113 + j - 1 = 112 + j by omega, Nat.cast_mul, Nat.cast_pow, Nat.cast_ofNat, pow_add]
      ring
    have hnear := roundShift_value (2 ^ 23 + m) 12
    have hlow : 2 ^ 10 ≤ roundShift (2 ^ 23 + m) 13 := le_roundShift (t := 12) (by omega)
    have hhigh : roundShift (2 ^ 23 + m) 13 ≤ 2 ^ 11 := roundShift_le (t := 12) (by omega)
    refine ⟨j + 1, roundShift (2 ^ 23 + m) 13, ?_, by omega, hhigh, .inr ⟨hlow, ?_⟩, ?_, ?_⟩
    · rw [if_neg h1, if_neg h2, if_neg (by omega), Nat.add_sub_cancel, Nat.add_sub_cancel_left]
    · rw [hvalue, Nat.add_sub_cancel, mul_assoc]
      refine mul_le_mul_of_nonneg_right ?_ (mul_pos hpow hunit).le
      rw [le_div_iff₀ (by positivity), Nat.cast_add]
      push_cast
      norm_num
    · rw [hvalue, Nat.add_sub_cancel, mul_assoc, ← sub_mul, abs_mul, abs_of_pos (mul_pos hpow hunit)]
      have := mul_le_mul_of_nonneg_right hnear (mul_pos hpow hunit).le
      linarith
    · rw [Nat.add_sub_cancel]
      rcases Nat.lt_or_ge j 29 with hj | hj
      · have := Nat.mul_le_mul_right (2 ^ 10) (show j ≤ 28 by omega)
        omega
      · obtain rfl : j = 29 := by omega
        have hm' : ((2 ^ 23 + m : ℕ) : ℚ) ≤ (2 ^ 13 * 2047 : ℕ) := by
          rw [hvalue] at hmax
          push_cast at hmax ⊢
          linarith
        have : roundShift (2 ^ 23 + m) 13 ≤ 2047 := roundShift_le (t := 12) (by exact_mod_cast hm')
        omega
  obtain ⟨E, r, hcode, hE, hr, hlow, hnear, hlt⟩ := hcode
  rw [hcode]
  exact ⟨hlt, nearest_grid hunit (f32Abs_nonneg b) hE hr hlow hnear hlt⟩

/-! ## 8 bits -/

/-- Below the least normal value. -/
def f8Low (a : ℚ) : Nat :=
  let mant := ⌊f32Round (f32Round (a * 512) + 1 / 2)⌋
  if mant ≤ 0 then 0 else if mant > 7 then 7 else mant.toNat

def f8High (a : ℚ) : Nat :=
  let exp := Int.log 2 a + 1 - 1 + 7
  let base : ℚ := 2 ^ (Int.log 2 a + 1 - 1)
  let mant := ⌊f32Round (f32Round (f32Round (f32Round (a / base) - 1) * 8) + 1 / 2)⌋
  let carried := if mant ≥ 8 then (0, exp + 1) else (mant, exp)
  if carried.2 ≥ 15 then 0x77 else carried.2.toNat * 2 ^ 3 + carried.1.toNat

/-- The code of a magnitude. -/
def f8Mag (a : ℚ) : Nat := if a = 0 then 0 else if 240 ≤ a then 0x77 else if a < 1 / 64 then f8Low a else f8High a

theorem distF32ToF8E4m3_eq {b : Nat} (hfin : b / 2 ^ 23 % 2 ^ 8 ≠ 255) :
    distF32ToF8E4m3 b = (if b / 2 ^ 31 % 2 = 1 then 0x80 else 0) + f8Mag (f32Abs b) := by
  have hnonneg := f32Abs_nonneg b
  rw [distF32ToF8E4m3, f8Mag]
  generalize f32Abs b = a at *
  generalize (if b / 2 ^ 31 % 2 = 1 then 0x80 else 0) = sign
  by_cases h0 : a = 0
  · simp [h0]
  by_cases h240 : 240 ≤ a
  · simp [h0, h240]
  have hlog : Int.log 2 a + 1 - 1 + 7 ≤ 0 ↔ a < 1 / 64 := by
    have hpos : 0 < a := lt_of_le_of_ne hnonneg (Ne.symm h0)
    have := Int.lt_zpow_iff_log_lt (b := 2) one_lt_two (x := -6) hpos
    norm_num at this
    rw [this]
    omega
  have hlow : (if ⌊f32Round (f32Round (a * 512) + 1 / 2)⌋ ≤ 0 then sign
      else if ⌊f32Round (f32Round (a * 512) + 1 / 2)⌋ > 7 then sign + 7
      else sign + ⌊f32Round (f32Round (a * 512) + 1 / 2)⌋.toNat) = sign + f8Low a := by
    rw [f8Low]
    split_ifs <;> rfl
  by_cases h64 : a < 1 / 64
  · simp only [h0, h240, hfin, hlog, h64, hlow, if_false, if_true, or_false, ite_self]
  · have h512 : ¬a < 1 / 512 := by
      norm_num at h64 ⊢
      linarith
    simp only [h0, h240, hfin, hlog, h64, h512, f8High, if_false, or_false]
    split_ifs <;> omega

/-- The least value the source takes as one half of the first spacing, and above one half short of the
    least normal value the last subnormal: where it rounds as if from there. -/
def f8Shift (a : ℚ) : ℚ :=
  if 1 / 2 ^ 10 - 1 / 2 ^ 34 ≤ a ∧ a < 1 / 2 ^ 10 then 1 / 2 ^ 10
  else if 15 / 2 ^ 10 < a ∧ a < 1 / 2 ^ 6 then 15 / 2 ^ 10
  else min a 240

section
variable {a : ℚ} (ha : IsF32 a)
include ha

theorem isF32_scaled : IsF32 (a * 512) := by
  have := ha.mul_two_pow 9
  norm_num at this
  exact this

theorem f8Low_small (h0 : 0 < a) (hlt : a < 1 / 2 ^ 10) : f8Low a = if 1 / 2 ^ 10 - 1 / 2 ^ 34 ≤ a then 1 else 0 := by
  have hy := (isF32_scaled ha).round
  have hfloor := floor_round_small (y := a * 512) (by linarith) (by norm_num at hlt ⊢; linarith)
  have hiff : (1 / 2 : ℚ) - 1 / 2 ^ 25 ≤ a * 512 ↔ 1 / 2 ^ 10 - 1 / 2 ^ 34 ≤ a := by
    norm_num
    constructor <;> intro h <;> linarith
  simp only [hiff] at hfloor
  rw [f8Low, hy, hfloor]
  split_ifs <;> simp_all

theorem f8Low_large (hge : 1 / 2 ^ 10 ≤ a) (hlt : a < 1 / 64) :
    f8Low a = if 15 / 2 ^ 10 ≤ a then 7 else ⌊a * 512 + 1 / 2⌋.toNat := by
  have hy := (isF32_scaled ha).round
  have hfloor := floor_round_half (y := a * 512) (isF32_scaled ha) (by norm_num at hge ⊢; linarith)
    (by norm_num at hlt ⊢; linarith)
  have hone : 1 ≤ ⌊a * 512 + 1 / 2⌋ := Int.le_floor.mpr (by norm_num at hge ⊢; linarith)
  have hseven : ⌊a * 512 + 1 / 2⌋ > 7 ↔ 15 / 2 ^ 10 ≤ a := by
    rw [gt_iff_lt, ← Int.add_one_le_iff, Int.le_floor]
    push_cast
    norm_num
    constructor <;> intro h <;> linarith
  rw [f8Low, hy, hfloor]
  simp only [hseven]
  rw [if_neg (by omega)]

/-- A normal value: the significand in eighths, rounded half up, with its carry. -/
theorem f8High_eq (hge : 1 / 64 ≤ a) (hlt : a < 240) : ∃ E r, f8High a = (E - 1) * 2 ^ 3 + r ∧
    1 ≤ E ∧ r ≤ 2 ^ 4 ∧ 2 ^ 3 ≤ r ∧ (2 : ℚ) ^ 3 * 2 ^ (E - 1) * (1 / 2 ^ 9) ≤ a ∧ |a - r * 2 ^ (E - 1) * (1 / 2 ^ 9)| ≤ 2 ^ (E - 1) * (1 / 2 ^ 9) / 2 ∧
    (E - 1) * 2 ^ 3 + r < 120 := by
  have hpos : 0 < a := by
    norm_num at hge
    linarith
  have hpow := Int.zpow_log_le_self (R := ℚ) one_lt_two hpos
  have hpow' := Int.lt_zpow_succ_log_self (R := ℚ) one_lt_two a
  rw [f8High]
  generalize hl : Int.log 2 a = l at hpow hpow'
  rw [Nat.cast_ofNat] at hpow hpow'
  have hl1 : -6 ≤ l := by
    rw [← hl, ← Int.zpow_le_iff_le_log one_lt_two hpos]
    norm_num at hge ⊢
    linarith
  have hl2 : l < 8 := by
    rw [← hl, ← Int.lt_zpow_iff_log_lt one_lt_two hpos]
    norm_num
    linarith
  obtain ⟨N, hN⟩ := ha.places hpow
  obtain ⟨e, he⟩ : ∃ e : ℕ, l = e - 6 := ⟨(l + 6).toNat, by omega⟩
  have hplace : (0 : ℚ) < 2 ^ (l - 23) := zpow_pos two_pos _
  have hbase : (2 : ℚ) ^ l = 2 ^ 23 * 2 ^ (l - 23) := by
    rw [zpow_sub₀ two_ne_zero]
    norm_num
    ring
  have hnext : (2 : ℚ) ^ (l + 1) = 2 ^ 24 * 2 ^ (l - 23) := by
    rw [zpow_add₀ two_ne_zero, hbase]
    norm_num
    ring
  have hNlow : (2 ^ 23 : ℚ) ≤ N := by
    rw [hbase, hN] at hpow
    exact le_of_mul_le_mul_right hpow hplace
  have hNhigh : (N : ℚ) < 2 ^ 24 := by
    rw [hnext, hN] at hpow'
    exact lt_of_mul_lt_mul_right hpow' hplace.le
  have hNlow' : 2 ^ 23 ≤ N := by exact_mod_cast hNlow
  have hNhigh' : N < 2 ^ 24 := by exact_mod_cast hNhigh
  have hquot : f32Round (a / 2 ^ (l + 1 - 1)) = N / 2 ^ 23 := by
    have hdiv : a / 2 ^ (l + 1 - 1) = N / 2 ^ 23 := by
      rw [add_sub_cancel_right, hbase, hN]
      field_simp
    rw [hdiv]
    exact IsF32.round ⟨N, -23, by rw [abs_of_nonneg (by omega)]; exact hNhigh', by omega, by norm_num; ring⟩
  have hfrac : f32Round ((N : ℚ) / 2 ^ 23 - 1) = (N - 2 ^ 23) / 2 ^ 23 := by
    have hsub : (N : ℚ) / 2 ^ 23 - 1 = (N - 2 ^ 23) / 2 ^ 23 := by ring
    rw [hsub]
    exact IsF32.round ⟨N - 2 ^ 23, -23, by rw [abs_of_nonneg (by omega)]; omega, by omega, by push_cast; norm_num; ring⟩
  have heighth : f32Round (((N : ℚ) - 2 ^ 23) / 2 ^ 23 * 8) = (N - 2 ^ 23) / 2 ^ 20 := by
    have hmul : ((N : ℚ) - 2 ^ 23) / 2 ^ 23 * 8 = (N - 2 ^ 23) / 2 ^ 20 := by ring
    rw [hmul]
    exact IsF32.round ⟨N - 2 ^ 23, -20, by rw [abs_of_nonneg (by omega)]; omega, by omega, by push_cast; norm_num; ring⟩
  have hsum : f32Round (((N : ℚ) - 2 ^ 23) / 2 ^ 20 + 1 / 2) = (N - 2 ^ 23) / 2 ^ 20 + 1 / 2 := by
    exact IsF32.round ⟨N - 2 ^ 23 + 2 ^ 19, -20, by rw [abs_of_nonneg (by omega)]; omega, by omega,
      by push_cast; norm_num; ring⟩
  obtain ⟨m, hm⟩ : ∃ m : ℕ, ⌊((N : ℚ) - 2 ^ 23) / 2 ^ 20 + 1 / 2⌋ = m := by
    have : 0 ≤ ⌊((N : ℚ) - 2 ^ 23) / 2 ^ 20 + 1 / 2⌋ := Int.floor_nonneg.mpr (by
      have : (0 : ℚ) ≤ (N - 2 ^ 23) / 2 ^ 20 := div_nonneg (by linarith) (by positivity)
      linarith)
    exact Int.eq_ofNat_of_zero_le this
  obtain ⟨hm1, hm2⟩ := Int.floor_eq_iff.mp hm
  rw [Int.cast_natCast] at hm1 hm2
  have hm8 : m ≤ 8 := by
    have : (m : ℚ) < 9 := by
      norm_num at hm1 hNhigh
      linarith
    have : m < 9 := by exact_mod_cast this
    omega
  have hm7 : e = 13 → m ≤ 7 := by
    intro h13
    have hl7 : l - 23 = -16 := by omega
    have hN240 : (N : ℚ) < 15 * 2 ^ 20 := by
      rw [hN, hl7] at hlt
      norm_num at hlt ⊢
      linarith
    have : (m : ℚ) < 8 := by
      norm_num at hm1 hN240
      linarith
    have : m < 8 := by exact_mod_cast this
    omega
  rw [hquot, hfrac, heighth, hsum, hm]
  have hunit : (2 : ℚ) ^ (e + 1 - 1) * (1 / 2 ^ 9) = 2 ^ 20 * 2 ^ (l - 23) := by
    have hexp : l - 23 = e - 29 := by omega
    rw [Nat.add_sub_cancel, hexp, zpow_sub₀ two_ne_zero, zpow_natCast]
    norm_num
    ring
  refine ⟨e + 1, 8 + m, ?_, by omega, by omega, by omega, ?_, ?_, by omega⟩
  · rcases hm8.lt_or_eq with h8 | rfl
    · have hlow : ¬(m : ℤ) ≥ 8 := by omega
      have hexp : ¬l + 1 - 1 + 7 ≥ 15 := by omega
      simp only [if_neg hlow, if_neg hexp]
      omega
    · have hhigh : ((8 : ℕ) : ℤ) ≥ 8 := le_refl _
      have hexp : ¬l + 1 - 1 + 7 + 1 ≥ 15 := by omega
      simp only [if_pos hhigh, if_neg hexp]
      omega
  · rw [mul_assoc, hunit, hN]
    have := mul_le_mul_of_nonneg_right hNlow hplace.le
    linarith
  · rw [mul_assoc, hunit, hN, abs_le]
    have h1 := mul_le_mul_of_nonneg_right hm1 hplace.le
    have h2 := mul_le_mul_of_nonneg_right hm2.le hplace.le
    push_cast
    constructor <;> linarith

/-- The code of a magnitude is the nearest one to where it rounds from. -/
theorem f8_code (h0 : 0 ≤ a) : f8Mag a < 120 ∧
    Nearest (gridValues 3 120 (1 / 2 ^ 9)) (f8Shift a) (grid 3 (f8Mag a) * (1 / 2 ^ 9)) := by
  have hunit : (0 : ℚ) < 1 / 2 ^ 9 := by norm_num
  -- a code of the first two binades is its own distance from zero
  have hlow {c : Nat} {x : ℚ} (hc : c ≤ 16) (hx : 0 ≤ x) (h : |x - c * (1 / 2 ^ 9)| ≤ 1 / 2 ^ 10) :
      c < 120 ∧ Nearest (gridValues 3 120 (1 / 2 ^ 9)) x (grid 3 c * (1 / 2 ^ 9)) := by
    have := nearest_grid (p := 3) (n := 120) (E := 1) (r := c) hunit hx (le_refl _) hc (.inl rfl)
      (by rw [Nat.sub_self, pow_zero, mul_one]; norm_num at h ⊢; exact h) (by omega)
    rw [Nat.sub_self, Nat.zero_mul, Nat.zero_add] at this
    exact ⟨by omega, this⟩
  rw [f8Mag]
  by_cases hzero : a = 0
  · subst hzero
    have hshift : f8Shift 0 = 0 := by
      rw [f8Shift, if_neg (by norm_num), if_neg (by norm_num), min_eq_left (by norm_num)]
    rw [if_pos rfl, hshift]
    exact hlow (by omega) (le_refl _) (by norm_num)
  have hpos : 0 < a := lt_of_le_of_ne h0 (Ne.symm hzero)
  rw [if_neg hzero]
  by_cases h240 : 240 ≤ a
  · have hshift : f8Shift a = 240 := by
      rw [f8Shift, if_neg (by norm_num; intro; linarith), if_neg (by norm_num; intro; linarith), min_eq_right h240]
    rw [if_pos h240, hshift]
    have hmax := nearest_grid (p := 3) (n := 120) (E := 14) (r := 15) (x := 240) hunit (by norm_num) (by norm_num)
      (by norm_num) (.inr ⟨by norm_num, by norm_num⟩) (by norm_num) (by norm_num)
    exact ⟨by norm_num, hmax⟩
  rw [if_neg h240]
  rw [not_le] at h240
  by_cases h64 : a < 1 / 64
  · rw [if_pos h64]
    by_cases hhalf : a < 1 / 2 ^ 10
    · rw [f8Low_small ha hpos hhalf]
      by_cases hup : 1 / 2 ^ 10 - 1 / 2 ^ 34 ≤ a
      · rw [if_pos hup, f8Shift, if_pos ⟨hup, hhalf⟩]
        exact hlow (by omega) (by norm_num) (by norm_num)
      · rw [if_neg hup, f8Shift, if_neg fun h => hup h.1, if_neg (by norm_num at hhalf ⊢; intro; linarith),
          min_eq_left h240.le]
        refine hlow (by omega) h0 ?_
        rw [Nat.cast_zero, zero_mul, sub_zero, abs_of_nonneg h0]
        exact hhalf.le
    · rw [not_lt] at hhalf
      have hskip : f8Shift a = if 15 / 2 ^ 10 < a ∧ a < 1 / 2 ^ 6 then 15 / 2 ^ 10 else min a 240 := by
        rw [f8Shift, if_neg fun h => absurd hhalf (not_le.mpr h.2)]
      rw [f8Low_large ha hhalf h64, hskip]
      by_cases hlast : 15 / 2 ^ 10 ≤ a
      · have hshift : (if 15 / 2 ^ 10 < a ∧ a < 1 / 2 ^ 6 then 15 / 2 ^ 10 else min a 240) = 15 / 2 ^ 10 := by
          rcases hlast.lt_or_eq with hlt | heq
          · rw [if_pos ⟨hlt, by norm_num at h64 ⊢; exact h64⟩]
          · rw [if_neg fun h => absurd heq h.1.ne, min_eq_left h240.le, heq]
        rw [if_pos hlast, hshift]
        exact hlow (by omega) (by norm_num) (by norm_num)
      · obtain ⟨m, hm⟩ : ∃ m : ℕ, ⌊a * 512 + 1 / 2⌋ = m := by
          have : 0 ≤ ⌊a * 512 + 1 / 2⌋ := Int.floor_nonneg.mpr (by linarith)
          exact Int.eq_ofNat_of_zero_le this
        obtain ⟨hm1, hm2⟩ := Int.floor_eq_iff.mp hm
        rw [Int.cast_natCast] at hm1 hm2
        rw [not_le] at hlast
        have hm8 : m ≤ 8 := by
          have : (m : ℚ) < 9 := by
            norm_num at hlast
            linarith
          have : m < 9 := by exact_mod_cast this
          omega
        have hno : ¬(15 / 2 ^ 10 < a ∧ a < 1 / 2 ^ 6) := fun h => absurd hlast (not_lt.mpr h.1.le)
        rw [if_neg (not_le.mpr hlast), if_neg hno, min_eq_left h240.le, hm, Int.toNat_natCast]
        refine hlow (by omega) h0 ?_
        rw [abs_le]
        norm_num
        constructor <;> linarith
  · rw [if_neg h64]
    rw [not_lt] at h64
    obtain ⟨E, r, hcode, hE, hr, hr8, hbase, hnear, hlt⟩ := f8High_eq ha h64 h240
    have hshift : f8Shift a = a := by
      rw [f8Shift, if_neg (by norm_num at h64 ⊢; intro; linarith), if_neg (by norm_num at h64 ⊢; intro; linarith),
        min_eq_left h240.le]
    rw [hcode, hshift]
    exact ⟨hlt, nearest_grid hunit h0 hE hr (.inr ⟨hr8, hbase⟩) hnear hlt⟩

end

theorem withSign_eq (s : Nat) (a : ℚ) : withSign s a = (if s = 1 then -1 else 1) * a := by
  rw [withSign]
  split <;> ring

theorem isF32_signed (s : Nat) {n : Nat} {e : ℤ} (hn : n < 2 ^ 24) (he : -149 ≤ e) :
    IsF32 ((if s = 1 then -1 else 1) * (n * 2 ^ e)) := by
  split
  · refine ⟨-n, e, ?_, he, ?_⟩
    · rw [abs_neg, abs_of_nonneg (by positivity)]
      omega
    · push_cast
      ring
  · refine ⟨n, e, ?_, he, ?_⟩
    · rw [abs_of_nonneg (by positivity)]
      omega
    · push_cast
      ring

/-- What an 8-bit code is worth: those of the last exponent are the largest value. -/
theorem f8_decode {h : Nat} (hlt : h < 2 ^ 8) :
    distF8E4m3ToF32 h = withSign (h / 2 ^ 7) (grid 3 (min (h % 2 ^ 7) 119) * (1 / 2 ^ 9)) := by
  have hs : h / 2 ^ 7 % 2 = h / 2 ^ 7 := by omega
  have hexp : h % 2 ^ 7 / 2 ^ 3 = h / 2 ^ 3 % 2 ^ 4 := by omega
  have hmant : h % 2 ^ 7 % 2 ^ 3 = h % 2 ^ 3 := by omega
  have hm : h % 2 ^ 3 < 8 := by omega
  have he : h / 2 ^ 3 % 2 ^ 4 < 16 := by omega
  have hcode : h % 2 ^ 7 = h / 2 ^ 3 % 2 ^ 4 * 8 + h % 2 ^ 3 := by omega
  rw [distF8E4m3ToF32, hs, withSign_eq]
  generalize h / 2 ^ 7 = s at *
  generalize h % 2 ^ 7 = k at *
  generalize h / 2 ^ 3 % 2 ^ 4 = e at *
  generalize h % 2 ^ 3 = m at *
  have hexact {n : Nat} {j : ℤ} (hn : n < 2 ^ 24) (hj : -149 ≤ j) :
      f32Round ((if s = 1 then -1 else 1) * ((n : ℚ) * 2 ^ j)) = (if s = 1 then -1 else 1) * (n * 2 ^ j) :=
    (isF32_signed s hn hj).round
  have hpositive {n : Nat} {j : ℤ} (hn : n < 2 ^ 24) (hj : -149 ≤ j) : f32Round ((n : ℚ) * 2 ^ j) = n * 2 ^ j := by
    have := (isF32_signed 0 hn hj).round
    rwa [if_neg (by omega), one_mul] at this
  by_cases h0 : e = 0
  · subst h0
    have hk : min k 119 = m := by omega
    have h1 := hexact (n := m) (j := 0) (by omega) (by omega)
    rw [zpow_zero, mul_one] at h1
    have h2 := hexact (n := m) (j := -9) (by omega) (by omega)
    have hscale : (if s = 1 then -1 else 1) * (m : ℚ) * (1 / 512) = (if s = 1 then -1 else 1) * (m * 2 ^ (-9 : ℤ)) := by
      norm_num
    have hgrid : grid 3 m = m := if_pos hm
    simp only [if_true, h1, hscale, h2]
    rw [hk, hgrid]
    norm_num
  by_cases h15 : e ≥ 15
  · have hk : min k 119 = 119 := by omega
    have h1 := hexact (n := 240) (j := 0) (by omega) (by omega)
    rw [zpow_zero, mul_one] at h1
    simp only [h0, if_false, h15, if_true]
    rw [hk]
    push_cast at h1
    rw [h1]
    norm_num [grid]
  · have hk : min k 119 = k := by omega
    have hgrid : grid 3 k = (8 + m) * 2 ^ (e - 1) := by
      have h1 : k / 2 ^ 3 = e := by omega
      have h2 : k % 2 ^ 3 = m := by omega
      rw [grid, if_neg (by omega), h1, h2]
      norm_num
    have h1 : f32Round ((m : ℚ) / 8) = m / 8 := by
      have := hpositive (n := m) (j := -3) (by omega) (by omega)
      norm_num at this
      rwa [mul_one_div] at this
    have h2 : f32Round (1 + (m : ℚ) / 8) = 1 + m / 8 := by
      have := hpositive (n := 8 + m) (j := -3) (by omega) (by omega)
      have hsum : ((8 + m : ℕ) : ℚ) * 2 ^ (-3 : ℤ) = 1 + m / 8 := by
        push_cast
        norm_num
        ring
      rwa [hsum] at this
    have hscale : (1 + (m : ℚ) / 8) * 2 ^ ((e : ℤ) - 7) = ((8 + m : ℕ) : ℚ) * 2 ^ ((e : ℤ) - 10) := by
      rw [show (e : ℤ) - 7 = (e : ℤ) - 10 + 3 by ring, zpow_add₀ two_ne_zero]
      push_cast
      ring
    have h3 := hpositive (n := 8 + m) (j := (e : ℤ) - 10) (by omega) (by omega)
    have h4 := hexact (n := 8 + m) (j := (e : ℤ) - 10) (by omega) (by omega)
    simp only [h0, if_false, h15, h1, h2, hscale, h3, h4]
    rw [hk, hgrid]
    obtain ⟨d, rfl⟩ := Nat.exists_eq_add_of_le' (Nat.one_le_iff_ne_zero.mpr h0)
    have hpow : (2 : ℚ) ^ (((d + 1 : ℕ) : ℤ) - 10) = 2 ^ d * (1 / 2 ^ 9) := by
      rw [show ((d + 1 : ℕ) : ℤ) - 10 = (d : ℤ) - 9 by push_cast; ring, zpow_sub₀ two_ne_zero, zpow_natCast]
      norm_num
      ring
    rw [hpow, Nat.add_sub_cancel]
    push_cast
    ring

theorem f8Values_eq : f8Values = gridValues 3 120 (1 / 2 ^ 9) := by
  ext v
  constructor
  · rintro ⟨h, hlt, rfl⟩
    rw [f8_decode hlt, withSign]
    refine ⟨min (h % 2 ^ 7) 119, by omega, ?_⟩
    split
    · exact .inr rfl
    · exact .inl rfl
  · rintro ⟨k, hk, rfl | rfl⟩
    · refine ⟨k, by omega, ?_⟩
      rw [f8_decode (by omega), Nat.mod_eq_of_lt (by omega), Nat.div_eq_of_lt (by omega), min_eq_left (by omega)]
      rfl
    · refine ⟨2 ^ 7 + k, by omega, ?_⟩
      rw [f8_decode (by omega), show (2 ^ 7 + k) % 2 ^ 7 = k by omega, show (2 ^ 7 + k) / 2 ^ 7 = 1 by omega,
        min_eq_left (by omega)]
      rfl

/-! ## Both signs -/

theorem abs_withSign {s : Nat} {a : ℚ} (ha : 0 ≤ a) : |withSign s a| = a := by
  rw [withSign]
  split
  · rw [abs_neg, abs_of_nonneg ha]
  · exact abs_of_nonneg ha

theorem nearest_withSign {p n s : Nat} {u a v : ℚ} (h : Nearest (gridValues p n u) a v) :
    Nearest (gridValues p n u) (withSign s a) (withSign s v) := by
  rw [withSign, withSign]
  split
  · exact h.neg fun w => gridValues_neg
  · exact h

namespace FiniteF32

theorem value_eq (x : FiniteF32) : x.value = withSign (x.bits / 2 ^ 31) (f32Abs (x.bits % 2 ^ 31)) := by
  have hlt := x.lt
  have hsign : x.bits / 2 ^ 31 % 2 = x.bits / 2 ^ 31 := by omega
  rw [value, f32Value, hsign, f32Abs, f32Abs, f32Mag_eq, f32Mag_eq, Nat.mod_mod]

theorem abs_value (x : FiniteF32) : |x.value| = f32Abs (x.bits % 2 ^ 31) := by
  rw [value_eq, abs_withSign (f32Abs_nonneg _)]

theorem neg_bits (x : FiniteF32) :
    x.neg.bits / 2 ^ 31 = 1 - x.bits / 2 ^ 31 ∧ x.neg.bits % 2 ^ 31 = x.bits % 2 ^ 31 := by
  have hlt := x.lt
  rw [neg]
  dsimp only
  split <;> omega

end FiniteF32

/-- What a round trip keeps, of floats up to a largest one. -/
structure Keeps (max : ℚ) (S : Set ℚ) (rt : FiniteF32 → ℚ) : Prop where
  order : ∀ x y, |x.value| ≤ max → |y.value| ≤ max → x.value ≤ y.value → rt x ≤ rt y
  sign : ∀ x, |x.value| ≤ max → rt x.neg = -rt x
  members : ∀ x, |x.value| ≤ max → x.value ∈ S → rt x = x.value

/-- A round trip that treats the sign apart and keeps the order of magnitudes. -/
theorem keeps_of {max : ℚ} {S : Set ℚ} {rt : FiniteF32 → ℚ} (mag : Nat → ℚ)
    (hrt : ∀ x : FiniteF32, |x.value| ≤ max → rt x = withSign (x.bits / 2 ^ 31) (mag (x.bits % 2 ^ 31)))
    (hnonneg : ∀ b, 0 ≤ mag b) (hzero : ∀ b < 2 ^ 31, f32Abs b = 0 → mag b = 0)
    (hmono : ∀ b < 2 ^ 31, ∀ c < 2 ^ 31, f32Abs c ≤ max → f32Abs b ≤ f32Abs c → mag b ≤ mag c)
    (hmembers : ∀ x : FiniteF32, |x.value| ≤ max → x.value ∈ S → rt x = x.value) : Keeps max S rt := by
  refine ⟨fun x y hx hy hle => ?_, fun x hx => ?_, hmembers⟩
  · rw [hrt x hx, hrt y hy]
    rw [x.value_eq, y.value_eq] at hle
    rw [x.abs_value] at hx
    rw [y.abs_value] at hy
    have hxb : x.bits % 2 ^ 31 < 2 ^ 31 := Nat.mod_lt _ (Nat.two_pow_pos _)
    have hyb : y.bits % 2 ^ 31 < 2 ^ 31 := Nat.mod_lt _ (Nat.two_pow_pos _)
    have hx0 := f32Abs_nonneg (x.bits % 2 ^ 31)
    have hy0 := f32Abs_nonneg (y.bits % 2 ^ 31)
    have hmx := hnonneg (x.bits % 2 ^ 31)
    have hmy := hnonneg (y.bits % 2 ^ 31)
    rw [withSign, withSign] at hle ⊢
    by_cases hs : x.bits / 2 ^ 31 = 1
    · rw [if_pos hs] at hle ⊢
      by_cases ht : y.bits / 2 ^ 31 = 1
      · rw [if_pos ht] at hle ⊢
        exact neg_le_neg (hmono _ hyb _ hxb hx (neg_le_neg_iff.mp hle))
      · rw [if_neg ht]
        linarith
    · rw [if_neg hs] at hle ⊢
      by_cases ht : y.bits / 2 ^ 31 = 1
      · rw [if_pos ht] at hle ⊢
        rw [hzero _ hxb (by linarith), hzero _ hyb (by linarith), neg_zero]
      · rw [if_neg ht] at hle ⊢
        exact hmono _ hxb _ hyb hy hle
  · have hneg := x.neg_bits
    have hlt := x.lt
    have hx' : |x.neg.value| ≤ max := by
      rw [x.neg.abs_value, hneg.2, ← x.abs_value]
      exact hx
    rw [hrt _ hx', hrt x hx, hneg.1, hneg.2, withSign_neg (by omega)]

/-- The 16-bit round trip, sign apart. -/
theorem f16RoundTrip_eq (x : FiniteF32) (hx : |x.value| ≤ 65504) :
    f16RoundTrip x = withSign (x.bits / 2 ^ 31) (grid 10 (f32ToF16 (x.bits % 2 ^ 31)) * (1 / 2 ^ 24)) := by
  have hlt := x.lt
  have hb : x.bits % 2 ^ 31 < 2 ^ 31 := Nat.mod_lt _ (Nat.two_pow_pos _)
  rw [x.abs_value] at hx
  have hcode := (f16_code hb hx).1
  have hsplit : f32ToF16 x.bits = x.bits / 2 ^ 31 * 2 ^ 15 + f32ToF16 (x.bits % 2 ^ 31) := by
    rw [← f32ToF16_sign (by omega) hb, Nat.div_add_mod']
  generalize f32ToF16 (x.bits % 2 ^ 31) = c at *
  rw [f16RoundTrip, distF16ToF32, distF32ToF16, hsplit, f16_decode (by omega) (by omega)]
  congr 1
  · omega
  · rw [show (x.bits / 2 ^ 31 * 2 ^ 15 + c) % 2 ^ 15 = c by omega]

theorem f16_nearest (x : FiniteF32) (hx : |x.value| ≤ 65504) : Nearest f16Values x.value (f16RoundTrip x) := by
  rw [f16RoundTrip_eq x hx, f16Values_eq, x.value_eq]
  rw [x.abs_value] at hx
  exact nearest_withSign (f16_code (Nat.mod_lt _ (Nat.two_pow_pos _)) hx).2

theorem f16_keeps : Keeps 65504 f16Values f16RoundTrip := by
  refine keeps_of (fun b => grid 10 (f32ToF16 b) * (1 / 2 ^ 24)) f16RoundTrip_eq (fun b => by positivity)
    (fun b hb h0 => ?_) (fun b hb c hc hmax hle => ?_) fun x hx hmem => (f16_nearest x hx).self hmem
  · have hnear := (f16_code hb (by rw [h0]; norm_num)).2
    rw [h0] at hnear
    have hmem : (0 : ℚ) ∈ gridValues 10 31744 (1 / 2 ^ 24) := ⟨0, by norm_num, .inl (by norm_num [grid])⟩
    exact hnear.self hmem
  · rcases hle.lt_or_eq with hlt | heq
    · exact (f16_code hb (hle.trans hmax)).2.mono (f16_code hc hmax).2 hlt
    · rw [f32Abs_inj hb hc heq]

/-- The 8-bit round trip, sign apart. -/
theorem f8RoundTrip_eq (x : FiniteF32) :
    f8RoundTrip x = withSign (x.bits / 2 ^ 31) (grid 3 (f8Mag (f32Abs (x.bits % 2 ^ 31))) * (1 / 2 ^ 9)) := by
  have hlt := x.lt
  have habs : f32Abs x.bits = f32Abs (x.bits % 2 ^ 31) := by
    rw [f32Abs, f32Abs, f32Mag_eq, f32Mag_eq, Nat.mod_mod]
  have hcode := (f8_code (isF32_abs (x.bits % 2 ^ 31)) (f32Abs_nonneg _)).1
  have hsign : (if x.bits / 2 ^ 31 % 2 = 1 then 0x80 else 0) = x.bits / 2 ^ 31 * 2 ^ 7 := by
    split <;> omega
  rw [f8RoundTrip, distF32ToF8E4m3_eq x.finite, habs, hsign]
  generalize f8Mag (f32Abs (x.bits % 2 ^ 31)) = c at *
  rw [f8_decode (by omega), show (x.bits / 2 ^ 31 * 2 ^ 7 + c) / 2 ^ 7 = x.bits / 2 ^ 31 by omega,
    show (x.bits / 2 ^ 31 * 2 ^ 7 + c) % 2 ^ 7 = c by omega, min_eq_left (by omega)]

/-- Where the 8-bit encoding misses the nearest value. -/
def F8Misses (a : ℚ) : Prop := 1 / 2 ^ 10 - 1 / 2 ^ 34 ≤ a ∧ a < 1 / 2 ^ 10 ∨ 15 / 2 ^ 10 < a ∧ a < 1 / 2 ^ 6

theorem f8Shift_self {a : ℚ} (h : ¬F8Misses a) (hmax : a ≤ 240) : f8Shift a = a := by
  rw [F8Misses, not_or] at h
  rw [f8Shift, if_neg h.1, if_neg h.2, min_eq_left hmax]

theorem f8Mag_half {a : ℚ} (ha : IsF32 a) (hlow : 1 / 2 ^ 10 - 1 / 2 ^ 34 ≤ a) (hhigh : a ≤ 1 / 2 ^ 10) :
    f8Mag a = 1 := by
  have hpos : 0 < a := by
    norm_num at hlow
    linarith
  have h64 : a < 1 / 64 := by
    norm_num at hhigh ⊢
    linarith
  rw [f8Mag, if_neg hpos.ne', if_neg (by norm_num at h64; linarith), if_pos h64]
  rcases hhigh.lt_or_eq with hlt | heq
  · rw [f8Low_small ha hpos hlt, if_pos hlow]
  · rw [f8Low_large ha heq.ge h64, heq, if_neg (by norm_num)]
    norm_num

theorem f8Mag_seven {a : ℚ} (ha : IsF32 a) (hlow : 15 / 2 ^ 10 ≤ a) (hhigh : a < 1 / 2 ^ 6) : f8Mag a = 7 := by
  have h64 : a < 1 / 64 := by
    norm_num at hhigh ⊢
    exact hhigh
  rw [f8Mag, if_neg (by rintro rfl; norm_num at hlow), if_neg (by norm_num at h64; linarith), if_pos h64,
    f8Low_large ha (by norm_num at hlow ⊢; linarith) h64, if_pos hlow]

/-- Larger magnitudes round from larger places, or from the same one with the same code. -/
theorem f8Shift_lt {a c : ℚ} (ha : IsF32 a) (hc : IsF32 c) (hlt : a < c) :
    f8Shift a < f8Shift c ∨ f8Mag a = f8Mag c := by
  by_cases h1 : 1 / 2 ^ 10 - 1 / 2 ^ 34 ≤ a ∧ a < 1 / 2 ^ 10
  · rcases le_or_gt c (1 / 2 ^ 10) with hc1 | hc1
    · exact .inr ((f8Mag_half ha h1.1 h1.2.le).trans (f8Mag_half hc (h1.1.trans hlt.le) hc1).symm)
    · left
      rw [f8Shift, if_pos h1, f8Shift, if_neg fun h => absurd h.2 (not_lt.mpr hc1.le)]
      split
      · norm_num
      · exact lt_min hc1 (by norm_num)
  by_cases h2 : 15 / 2 ^ 10 < a ∧ a < 1 / 2 ^ 6
  · rcases lt_or_ge c (1 / 2 ^ 6) with hc6 | hc6
    · exact .inr ((f8Mag_seven ha h2.1.le h2.2).trans (f8Mag_seven hc (h2.1.trans hlt).le hc6).symm)
    · left
      rw [f8Shift, if_neg h1, if_pos h2, f8Shift, if_neg (by norm_num at hc6 ⊢; intro; linarith),
        if_neg fun h => absurd h.2 (not_lt.mpr hc6)]
      exact lt_min (by norm_num at hc6 ⊢; linarith) (by norm_num)
  rw [f8Shift, if_neg h1, if_neg h2, f8Shift]
  rcases le_or_gt 240 a with ha240 | ha240
  · right
    have hc240 : 240 ≤ c := ha240.trans hlt.le
    rw [f8Mag, if_neg (by linarith), if_pos ha240, f8Mag, if_neg (by linarith), if_pos hc240]
  · rw [min_eq_left ha240.le]
    split
    · next h => exact .inl (hlt.trans h.2)
    split
    · next h =>
      rcases lt_or_ge a (15 / 2 ^ 10) with hlast | hlast
      · exact .inl hlast
      · exact .inr ((f8Mag_seven ha hlast (hlt.trans h.2)).trans (f8Mag_seven hc h.1.le h.2).symm)
    · exact .inl (lt_min hlt ha240)

theorem f8_mono {a c : ℚ} (ha : IsF32 a) (hc : IsF32 c) (h0 : 0 ≤ a) (hle : a ≤ c) :
    (grid 3 (f8Mag a) : ℚ) * (1 / 2 ^ 9) ≤ grid 3 (f8Mag c) * (1 / 2 ^ 9) := by
  rcases hle.lt_or_eq with hlt | rfl
  · rcases f8Shift_lt ha hc hlt with hshift | heq
    · exact (f8_code ha h0).2.mono (f8_code hc (h0.trans hle)).2 hshift
    · rw [heq]
  · exact le_refl _

theorem f8_nearest_iff (x : FiniteF32) (hx : |x.value| ≤ 240) :
    Nearest f8Values x.value (f8RoundTrip x) ↔ ¬F8Misses |x.value| := by
  have ha := isF32_abs (x.bits % 2 ^ 31)
  have h0 := f32Abs_nonneg (x.bits % 2 ^ 31)
  rw [f8RoundTrip_eq, f8Values_eq, x.value_eq]
  rw [x.abs_value] at hx
  rw [abs_withSign h0]
  generalize f32Abs (x.bits % 2 ^ 31) = a at *
  generalize x.bits / 2 ^ 31 = s
  constructor
  · intro hnear hmiss
    -- the sign apart, the misses have a value closer by
    have hnear' : Nearest (gridValues 3 120 (1 / 2 ^ 9)) a (grid 3 (f8Mag a) * (1 / 2 ^ 9)) := by
      have := nearest_withSign (s := s) hnear
      rwa [withSign_withSign, withSign_withSign] at this
    rcases hmiss with ⟨hlow, hhigh⟩ | ⟨hlow, hhigh⟩
    · have hone : grid 3 (f8Mag a) = 1 := by rw [f8Mag_half ha hlow hhigh.le]; rfl
      have := hnear'.2 0 ⟨0, by norm_num, .inl (by norm_num [grid])⟩
      rw [hone, Nat.cast_one, one_mul, sub_zero, abs_of_nonneg h0, abs_of_nonpos (by norm_num at hhigh ⊢; linarith)] at this
      norm_num at this hhigh
      linarith
    · have hseven : grid 3 (f8Mag a) = 7 := by rw [f8Mag_seven ha hlow.le hhigh]; rfl
      have := hnear'.2 (8 * (1 / 2 ^ 9)) ⟨8, by norm_num, .inl (by norm_num [grid])⟩
      rw [hseven, abs_of_nonneg (by norm_num at hlow ⊢; linarith), abs_of_nonpos (by norm_num at hhigh ⊢; linarith)] at this
      norm_num at this hlow
      linarith
  · intro hmiss
    have := (f8_code ha h0).2
    rw [f8Shift_self hmiss hx] at this
    exact nearest_withSign this

/-- A value of the format is not among the misses. -/
theorem f8Values_hit (x : FiniteF32) (hmem : x.value ∈ f8Values) : ¬F8Misses |x.value| := by
  rw [f8Values_eq] at hmem
  obtain ⟨k, -, hk⟩ := hmem
  have habs : |x.value| = grid 3 k * (1 / 2 ^ 9) := by
    have hpos : (0 : ℚ) ≤ grid 3 k * (1 / 2 ^ 9) := by positivity
    rcases hk with hk | hk
    · rw [hk, abs_of_nonneg hpos]
    · rw [hk, abs_neg, abs_of_nonneg hpos]
  rw [habs]
  generalize grid 3 k = n
  -- no integer is in either interval, counted in the least values
  rintro (⟨hlow, hhigh⟩ | ⟨hlow, hhigh⟩)
  · have h1 : (n : ℚ) < 1 := by
      norm_num at hhigh
      linarith
    have h2 : (0 : ℚ) < n := by
      norm_num at hlow
      linarith
    have h3 : n < 1 := by exact_mod_cast h1
    have h4 : 0 < n := by exact_mod_cast h2
    omega
  · have h1 : (n : ℚ) < 8 := by
      norm_num at hhigh
      linarith
    have h2 : (7 : ℚ) < n := by
      norm_num at hlow
      linarith
    have h3 : n < 8 := by exact_mod_cast h1
    have h4 : 7 < n := by exact_mod_cast h2
    omega

theorem f8_keeps : Keeps 240 f8Values f8RoundTrip := by
  refine keeps_of (fun b => grid 3 (f8Mag (f32Abs b)) * (1 / 2 ^ 9)) (fun x _ => f8RoundTrip_eq x)
    (fun b => by positivity) (fun b hb h0 => ?_) (fun b hb c hc _ hle => ?_) fun x hx hmem => ?_
  · rw [h0]
    norm_num [f8Mag, grid]
  · exact f8_mono (isF32_abs b) (isF32_abs c) (f32Abs_nonneg b) hle
  · exact ((f8_nearest_iff x hx).mpr (f8Values_hit x hmem)).self hmem

/-- Both codecs give a nearest value of their format, up to its largest. -/
def RoundsToNearest (x : FiniteF32) : Prop :=
  (|x.value| ≤ 65504 → Nearest f16Values x.value (f16RoundTrip x)) ∧
    (|x.value| ≤ 240 → Nearest f8Values x.value (f8RoundTrip x))

/-- A float is rounded to nearest but for the misses of the 8-bit encoding; order, signs and members
    are kept in both formats. -/
theorem activation_rounds_iff (x : FiniteF32) : (RoundsToNearest x ↔ ¬F8Misses |x.value|) ∧
    Keeps 65504 f16Values f16RoundTrip ∧ Keeps 240 f8Values f8RoundTrip := by
  refine ⟨?_, f16_keeps, f8_keeps⟩
  constructor
  · rintro ⟨-, h8⟩ hmiss
    have hx : |x.value| ≤ 240 := by
      rcases hmiss with ⟨-, h⟩ | ⟨-, h⟩
      · norm_num at h
        linarith
      · norm_num at h
        linarith
    exact (f8_nearest_iff x hx).mp (h8 hx) hmiss
  · exact fun hmiss => ⟨f16_nearest x, fun hx => (f8_nearest_iff x hx).mpr hmiss⟩

/-- Just below the least normal value the 8-bit encoding stays at the last subnormal. -/
theorem activation_rounds_fails : ¬∀ x, RoundsToNearest x := by
  intro h
  have hfin : (120 * 2 ^ 23 + 15 * 2 ^ 19) / 2 ^ 23 % 2 ^ 8 ≠ 255 := by norm_num
  have hvalue : |(FiniteF32.mk (120 * 2 ^ 23 + 15 * 2 ^ 19) (by norm_num) hfin).value| = 31 / 2 ^ 11 := by
    rw [FiniteF32.abs_value]
    norm_num [f32Abs, f32Mag]
  have h8 := (h ⟨120 * 2 ^ 23 + 15 * 2 ^ 19, by norm_num, hfin⟩).2 (by rw [hvalue]; norm_num)
  refine (f8_nearest_iff _ (by rw [hvalue]; norm_num)).mp h8 (.inr ?_)
  rw [hvalue]
  norm_num

end Ds4.Dist
