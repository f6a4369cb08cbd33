import Mathlib.Algebra.Group.Nat.Defs
import Mathlib.Algebra.Group.Int.Defs
import Mathlib.Tactic.Common
import Ds4.ByteStore

/- Half precision as the portable branch of ds4.c converts it, on bit patterns:
   a half is a `Nat` below 2^16, a float one below 2^32, and the disjoint `|` of
   the source is `+`.

   Correspondence (C ↔ Lean): `f16_to_f32`, `f32_to_f16` ↔ `f16ToF32`, `f32ToF16`.
   The ARM branch does the same through one instruction each. Widening loses
   nothing: `f32ToF16_f16ToF32` is the identity on every half but a NaN, whose
   payload is dropped. -/
namespace Ds4.Engine
open Ds4 Bytes

/-- The `while` of a subnormal: shift the mantissa up to its leading bit. -/
def normalizeHalf : Nat → Nat → Int → Nat × Int
  | 0, mant, exp => (mant, exp)
  | fuel + 1, mant, exp => if mant / 1024 % 2 = 0 then normalizeHalf fuel (mant * 2) (exp - 1) else (mant, exp)

def f16ToF32 (h : Nat) : Nat :=
  let sign := h / 2 ^ 15 * 2 ^ 31
  let exp := h / 2 ^ 10 % 2 ^ 5
  let mant := h % 2 ^ 10
  if exp = 0 then
    if mant = 0 then sign
    else
      let (m, e) := normalizeHalf 10 mant 1
      sign + (e + 127 - 15).toNat * 2 ^ 23 + m % 2 ^ 10 * 2 ^ 13
  else if exp = 31 then sign + 255 * 2 ^ 23 + mant * 2 ^ 13
  else sign + (exp + 127 - 15) * 2 ^ 23 + mant * 2 ^ 13

def f32ToF16 (bits : Nat) : Nat :=
  let sign := bits / 2 ^ 31 % 2 * 2 ^ 15
  let exp : Int := bits / 2 ^ 23 % 2 ^ 8 - 127 + 15
  let mant := bits % 2 ^ 23
  if exp ≤ 0 then
    if exp < -10 then sign
    else
      let mant := mant + 2 ^ 23
      let shift := (14 - exp).toNat
      let half := mant / 2 ^ shift
      let roundBit := mant / 2 ^ (shift - 1) % 2
      let sticky := mant % 2 ^ (shift - 1)
      sign + if roundBit ≠ 0 ∧ (sticky ≠ 0 ∨ half % 2 = 1) then half + 1 else half
  else if exp ≥ 31 then
    if bits / 2 ^ 23 % 2 ^ 8 = 255 ∧ mant ≠ 0 then sign + 0x7e00 else sign + 0x7c00
  else
    let half := sign + exp.toNat * 2 ^ 10 + mant / 2 ^ 13
    let round := mant % 2 ^ 13
    if round > 0x1000 ∨ round = 0x1000 ∧ half % 2 = 1 then half + 1 else half

def halfNaN (h : Nat) : Prop := h / 2 ^ 10 % 2 ^ 5 = 31 ∧ h % 2 ^ 10 ≠ 0

theorem f16ToF32_subnormal : ∀ s < 2, ∀ m < 1024, f32ToF16 (f16ToF32 (s * 2 ^ 15 + m)) = s * 2 ^ 15 + m ∧
    f16ToF32 (s * 2 ^ 15 + m) < 2 ^ 32 := by
  decide +kernel

theorem f16ToF32_lt {h : Nat} (hlt : h < 2 ^ 16) : f16ToF32 h < 2 ^ 32 := by
  by_cases hexp : h / 2 ^ 10 % 2 ^ 5 = 0
  · have := (f16ToF32_subnormal (h / 2 ^ 15) (by omega) (h % 2 ^ 10) (by omega)).2
    have heq : h / 2 ^ 15 * 2 ^ 15 + h % 2 ^ 10 = h := by omega
    rwa [heq] at this
  · simp only [f16ToF32, if_neg hexp]
    split_ifs <;> omega

theorem f32ToF16_f16ToF32 {h : Nat} (hlt : h < 2 ^ 16) (hnan : ¬halfNaN h) : f32ToF16 (f16ToF32 h) = h := by
  by_cases hexp : h / 2 ^ 10 % 2 ^ 5 = 0
  · have := (f16ToF32_subnormal (h / 2 ^ 15) (by omega) (h % 2 ^ 10) (by omega)).1
    have heq : h / 2 ^ 15 * 2 ^ 15 + h % 2 ^ 10 = h := by omega
    rwa [heq] at this
  · by_cases hinf : h / 2 ^ 10 % 2 ^ 5 = 31
    · have hmant : h % 2 ^ 10 = 0 := by
        by_contra hne
        exact hnan ⟨hinf, hne⟩
      simp only [f16ToF32, if_neg hexp, if_pos hinf, hmant, f32ToF16]
      split_ifs <;> omega
    · simp only [f16ToF32, if_neg hexp, if_neg hinf, f32ToF16]
      split_ifs <;> omega

/-- The bits of a float NaN. -/
def floatNaN (bits : Nat) : Prop := bits / 2 ^ 23 % 2 ^ 8 = 255 ∧ bits % 2 ^ 23 ≠ 0

theorem halfNaN_float {h : Nat} (hnan : halfNaN h) : floatNaN (f16ToF32 h) := by
  obtain ⟨hexp, hmant⟩ := hnan
  simp only [f16ToF32, hexp, floatNaN]
  simp
  omega

end Ds4.Engine
