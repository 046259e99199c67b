import Machismo.Data.Bytes

/-! # Groups of seven bits

A variable-length number is put together from its groups by shifts and bitwise or. As long as a group
fits above the ones before, this is addition; the bits of a group that do not fit are lost.
-/
namespace Machismo.Data
open A64 (Byte)

theorem toNat_low_bits (byte : Byte) : ((byte &&& 0x7f).setWidth 64 : BitVec 64).toNat = byte.toNat % 128 := by
  have hand : (byte &&& 0x7f).toNat = byte.toNat % 128 := Nat.and_two_pow_sub_one_eq_mod byte.toNat 7
  rw [BitVec.toNat_setWidth_of_le (by decide),hand]

theorem getLsbD_seven_iff (byte : Byte) : byte.getLsbD 7 = true ↔ 128 ≤ byte.toNat := by
  revert byte
  decide

theorem high_bit_clear (byte : Byte) : byte &&& 0x80 = 0 ↔ byte.toNat < 128 := by
  have hall : ∀ byte : Byte, byte &&& 0x80 = 0 ↔ byte.toNat < 128 := by decide
  exact hall byte

theorem toNat_or_group_mod {acc : BitVec 64} {shift : ℕ} {byte : Byte} (hshift : shift ≤ 64)
    (hacc : acc.toNat < 2^shift) :
    (acc ||| (byte &&& 0x7f).setWidth 64 <<< shift).toNat = (acc.toNat + byte.toNat % 128 * 2^shift) % 2^64 := by
  obtain ⟨k,hk⟩ := Nat.exists_eq_add_of_le hshift
  have hpow : (2 : ℕ)^64 = 2^k * 2^shift := by rw [← pow_add,Nat.add_comm k,← hk]
  generalize byte.toNat % 128 = g, toNat_low_bits byte = hlow
  have hmod : g * 2^shift % 2^64 = g % 2^k * 2^shift := by rw [hpow,Nat.mul_mod_mul_right]
  have hle : g % 2^k + 1 ≤ 2^k := Nat.mod_lt _ (Nat.two_pow_pos k)
  have hlt : g % 2^k * 2^shift + acc.toNat < 2^64 := by
    calc g % 2^k * 2^shift + acc.toNat < g % 2^k * 2^shift + 2^shift := Nat.add_lt_add_left hacc _
      _ = (g % 2^k + 1) * 2^shift := (Nat.succ_mul _ _).symm
      _ ≤ 2^k * 2^shift := Nat.mul_le_mul_right _ hle
      _ = 2^64 := hpow.symm
  have hsum : (acc.toNat + g * 2^shift) % 2^64 = g % 2^k * 2^shift + acc.toNat := by
    rw [Nat.add_comm,Nat.add_mod,hmod,Nat.mod_eq_of_lt acc.isLt,Nat.mod_eq_of_lt hlt]
  rw [BitVec.toNat_or,BitVec.toNat_shiftLeft,hlow,Nat.shiftLeft_eq,hmod,hsum,Nat.or_comm,← Nat.shiftLeft_eq,
    ← Nat.shiftLeft_add_eq_or_of_lt hacc]

theorem toNat_or_group {acc : BitVec 64} {shift : ℕ} {byte : Byte} (hacc : acc.toNat < 2^shift)
    (hfits : byte.toNat % 128 * 2^shift < 2^64) :
    (acc ||| (byte &&& 0x7f).setWidth 64 <<< shift).toNat = acc.toNat + byte.toNat % 128 * 2^shift := by
  rw [BitVec.toNat_or,BitVec.toNat_shiftLeft,toNat_low_bits,Nat.shiftLeft_eq,Nat.mod_eq_of_lt hfits,Nat.or_comm,
    ← Nat.shiftLeft_eq,← Nat.shiftLeft_add_eq_or_of_lt hacc,Nat.shiftLeft_eq,Nat.add_comm]

end Machismo.Data
