import Mathlib
import Machismo.Resolver.Leb128

/-! # Variable-length operands in the analysis tool

The two readers of the tool, whose integers have no width: a number may take ten bytes, and its
last group is kept whole.  Where they succeed, the loader reads the same number modulo `2^64`
and goes on at the same byte.
-/
namespace Machismo.RecoverSdl
open Machismo.A64 (Byte)
open Machismo.Resolver

/-- The loop of `read_uleb`; it fails where the tool raises an error. -/
def readUlebLoop (value shift : ℕ) : List Byte → Option (ℕ × List Byte)
  | [] => none
  | byte :: raw =>
    let value := value ||| (byte &&& 0x7f).toNat <<< shift
    if byte &&& 0x80 = 0 then some (value,raw)
    else if 64 ≤ shift+7 then none
    else readUlebLoop value (shift+7) raw

def readUleb (raw : List Byte) : Option (ℕ × List Byte) := readUlebLoop 0 0 raw

/-- The loop of `read_sleb`.  The value has no bits from `shift` on, so `value |= -(1 << shift)` subtracts. -/
def readSlebLoop (value shift : ℕ) : List Byte → Option (ℤ × List Byte)
  | [] => none
  | byte :: raw =>
    let value := value ||| (byte &&& 0x7f).toNat <<< shift
    let shift := shift+7
    if byte &&& 0x80 = 0 then
      some (if shift < 64 ∧ byte &&& 0x40 ≠ 0 then (value : ℤ)-2^shift else value,raw)
    else if 64 ≤ shift then none
    else readSlebLoop value shift raw

def readSleb (raw : List Byte) : Option (ℤ × List Byte) := readSlebLoop 0 0 raw

section Loader

theorem ofNat_or_group (value shift : ℕ) (byte : Byte) (hshift : shift < 64) :
    BitVec.ofNat 64 (value ||| (byte &&& 0x7f).toNat <<< shift) =
      BitVec.ofNat 64 value ||| (byte &&& 0x7f).setWidth 64 <<< (shift%64) := by
  apply BitVec.eq_of_getLsbD_eq
  intro i hi
  rw [BitVec.getLsbD_or,BitVec.getLsbD_ofNat,BitVec.getLsbD_ofNat,BitVec.getLsbD_shiftLeft,BitVec.getLsbD_setWidth,
    Nat.testBit_or,Nat.testBit_shiftLeft,BitVec.testBit_toNat,Nat.mod_eq_of_lt hshift]
  have hwidth : i-shift < 64 := by omega
  by_cases hlow : i < shift
  · simp [hi,hlow,Nat.not_le.mpr hlow]
  · simp [hi,hlow,hwidth,Nat.le_of_not_lt hlow]

theorem readUlebFrom_of_loop {raw rest : List Byte} {value shift n : ℕ} (hshift : shift < 64)
    (h : readUlebLoop value shift raw = some (n,rest)) :
    readUlebFrom shift (BitVec.ofNat 64 value) raw = (BitVec.ofNat 64 n,rest) := by
  induction raw generalizing value shift with
  | nil => cases h
  | cons byte raw ih =>
    unfold readUlebLoop at h
    unfold readUlebFrom
    dsimp only at h ⊢
    rw [← ofNat_or_group value shift byte hshift]
    split_ifs at h ⊢ with hlast hlong
    · obtain ⟨rfl,rfl⟩ := Prod.mk.inj (Option.some.inj h)
      rfl
    · exact ih (by omega) h

theorem readUleb128_of_readUleb {raw rest : List Byte} {n : ℕ} (h : readUleb raw = some (n,rest)) :
    readUleb128 raw = (BitVec.ofNat 64 n,rest) := readUlebFrom_of_loop (by decide) h

theorem getLsbD_neg_one_shiftLeft (shift i : ℕ) (hi : i < 64) :
    (-(1#64 <<< shift)).getLsbD i = decide (shift ≤ i) := by
  have hshift : -(1#64 <<< shift) = BitVec.allOnes 64 <<< shift := by
    rw [BitVec.shiftLeft_eq_mul_twoPow,BitVec.shiftLeft_eq_mul_twoPow,← BitVec.neg_one_eq_allOnes,BitVec.neg_mul]
  have hwidth : i-shift < 64 := by omega
  rw [hshift,BitVec.getLsbD_shiftLeft,BitVec.getLsbD_allOnes]
  by_cases hle : shift ≤ i
  · simp [hi,hwidth,hle]
  · simp [Nat.lt_of_not_le hle,hle]

theorem ofNat_or_neg {value shift : ℕ} (hvalue : value < 2^shift) :
    BitVec.ofNat 64 value ||| -(1#64 <<< shift) = BitVec.ofInt 64 ((value : ℤ)-2^shift) := by
  have hdisjoint : BitVec.ofNat 64 value &&& -(1#64 <<< shift) = 0#64 := by
    apply BitVec.eq_of_getLsbD_eq
    intro i hi
    rw [BitVec.getLsbD_and,getLsbD_neg_one_shiftLeft shift i hi,BitVec.getLsbD_ofNat]
    by_cases hlow : shift ≤ i
    · have hbit : value.testBit i = false :=
        Nat.testBit_lt_two_pow (hvalue.trans_le (Nat.pow_le_pow_right (by decide) hlow))
      simp [hbit]
    · simp [hlow]
  have hpow : BitVec.ofInt 64 (2^shift) = 1#64 <<< shift := by
    have hcast : ((2 : ℤ)^shift) = ((2^shift : ℕ) : ℤ) := by push_cast; rfl
    apply BitVec.eq_of_toNat_eq
    rw [hcast,BitVec.ofInt_natCast,BitVec.toNat_ofNat,BitVec.toNat_shiftLeft,Nat.shiftLeft_eq,BitVec.toNat_ofNat]
    simp
  rw [← BitVec.add_eq_or_of_and_eq_zero _ _ hdisjoint,sub_eq_add_neg,BitVec.ofInt_add,BitVec.ofInt_neg,hpow,
    BitVec.ofInt_natCast]

theorem or_group_lt {value shift : ℕ} (hvalue : value < 2^shift) (byte : Byte) :
    value ||| (byte &&& 0x7f).toNat <<< shift < 2^(shift+7) := by
  have hgroup : (byte &&& 0x7f).toNat < 2^7 := by
    rw [BitVec.toNat_and]
    exact Nat.lt_of_le_of_lt Nat.and_le_right (by decide)
  refine Nat.or_lt_two_pow (hvalue.trans_le (Nat.pow_le_pow_right (by decide) (by omega))) ?_
  rw [Nat.shiftLeft_eq,Nat.pow_add,Nat.mul_comm]
  exact Nat.mul_lt_mul_of_pos_left hgroup (by positivity)

/-- The end of `read_sleb128`. -/
def signExtended (value : BitVec 64) (shift : ℕ) (last : Byte) : BitVec 64 :=
  if shift < 64 ∧ last &&& 0x40 ≠ 0 then value ||| -(1#64 <<< shift) else value

theorem readSlebFrom_of_loop {raw rest : List Byte} {value shift : ℕ} {z : ℤ} (hshift : shift < 64)
    (hvalue : value < 2^shift) (last : Byte) (h : readSlebLoop value shift raw = some (z,rest)) :
    ∃ v n byte, readSlebFrom shift (BitVec.ofNat 64 value) last raw = (v,n,byte,rest) ∧
      signExtended v n byte = BitVec.ofInt 64 z := by
  induction raw generalizing value shift last with
  | nil => cases h
  | cons byte raw ih =>
    have hmore := or_group_lt hvalue byte
    unfold readSlebLoop at h
    unfold readSlebFrom
    dsimp only at h ⊢
    rw [← ofNat_or_group value shift byte hshift]
    by_cases hlast : byte &&& 0x80 = 0
    · rw [if_pos hlast] at h ⊢
      obtain ⟨hz,rfl⟩ := Prod.mk.inj (Option.some.inj h)
      refine ⟨_,_,_,rfl,?_⟩
      rw [signExtended,← hz]
      split_ifs with hsign
      · exact ofNat_or_neg hmore
      · rw [BitVec.ofInt_natCast]
    · rw [if_neg hlast] at h ⊢
      split_ifs at h with hlong
      exact ih (by omega) hmore byte h

theorem readSleb128_of_readSleb {raw rest : List Byte} {z : ℤ} (h : readSleb raw = some (z,rest)) :
    readSleb128 raw = (BitVec.ofInt 64 z,rest) := by
  obtain ⟨v,n,byte,hread,hvalue⟩ := readSlebFrom_of_loop (by decide) (by decide) 0 h
  have hread' : readSlebFrom 0 0#64 0 raw = (v,n,byte,rest) := hread
  rw [readSleb128,hread']
  exact Prod.ext hvalue rfl

end Loader

end Machismo.RecoverSdl
