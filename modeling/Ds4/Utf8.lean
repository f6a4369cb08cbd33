import Mathlib.Algebra.Group.Nat.Defs
import Ds4.Bytes

/- The bytes `utf8_put` writes, as sums: the disjoint `|` of the source adds. -/
namespace Ds4
open Bytes

theorem or_add_low {i a b : Nat} (h : b < 2 ^ i) : b ||| 2 ^ i * a = b + 2 ^ i * a := by
  rw [Nat.or_comm, Nat.add_comm]
  exact (Nat.two_pow_add_eq_or_of_lt h a).symm

theorem toChar_or {v k : UInt32} {i a : Nat} (hv : v.toNat < 2 ^ i) (hk : k.toNat = 2 ^ i * a) :
    toChar (v ||| k) = UInt8.ofNat (v.toNat + k.toNat) := by
  rw [toChar, ← UInt8.ofNat_uInt32ToNat, UInt32.toNat_or, hk, or_add_low hv]

theorem toNat_low (v : UInt32) : (v &&& 0x3f).toNat = v.toNat % 64 := by
  rw [UInt32.toNat_and]
  exact Nat.and_two_pow_sub_one_eq_mod v.toNat 6

theorem toChar_tail (v : UInt32) : toChar ((v &&& 0x3f) ||| 0x80) = UInt8.ofNat (v.toNat % 64 + 0x80) := by
  have hlow := toNat_low v
  rw [@toChar_or _ _ 6 2 (by rw [hlow]; exact Nat.mod_lt _ (by decide)) rfl, hlow]
  rfl

/-- `utf8_put` writes a character as UTF-8 has it. -/
theorem utf8Put_char (c : Char) : Bytes.utf8Put c.val = String.utf8EncodeChar c := by
  have hmax : c.val.toNat < 0x110000 := by
    rcases c.valid with h | h
    · exact Nat.lt_trans h (by decide)
    · exact h.2
  have hle : ∀ k : UInt32, c.val ≤ k ↔ c.val.toNat ≤ k.toNat := fun k => UInt32.le_iff_toNat_le
  have h6 : (c.val >>> 6).toNat = c.val.toNat / 64 := by
    rw [UInt32.toNat_shiftRight, Nat.shiftRight_eq_div_pow]
    rfl
  have h12 : (c.val >>> 12).toNat = c.val.toNat / 4096 := by
    rw [UInt32.toNat_shiftRight, Nat.shiftRight_eq_div_pow]
    rfl
  have h18 : (c.val >>> 18).toNat = c.val.toNat / 262144 := by
    rw [UInt32.toNat_shiftRight, Nat.shiftRight_eq_div_pow]
    rfl
  rw [Bytes.utf8Put, String.utf8EncodeChar]
  simp only [hle, toChar_tail, h6, h12]
  show (if c.val.toNat ≤ 0x7f then _ else if c.val.toNat ≤ 0x7ff then _ else if c.val.toNat ≤ 0xffff then _ else _) = _
  split
  · rw [toChar, ← UInt8.ofNat_uInt32ToNat]
  · split
    · rw [@toChar_or _ _ 5 6 (by rw [h6]; omega) rfl, h6, show c.val.toNat / 64 % 32 = c.val.toNat / 64 by omega]
      rfl
    · split
      · rw [@toChar_or _ _ 4 14 (by rw [h12]; omega) rfl, h12, show c.val.toNat / 4096 % 16 = c.val.toNat / 4096 by omega]
        rfl
      · rw [@toChar_or _ _ 3 30 (by rw [h18]; omega) rfl, h18, show c.val.toNat / 262144 % 8 = c.val.toNat / 262144 by omega]
        rfl

end Ds4
