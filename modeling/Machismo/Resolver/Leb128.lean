import Machismo.A64.Memory

/-! # Variable-length operands

The two readers of the opcode streams, which stop at the end of the stream, and an encoding in ten
bytes that both of them read back.
-/
namespace Machismo.Resolver
open A64

/-- The loop of `read_uleb128`: the value and the rest of the stream. A shift beyond the width of the
register goes by its low six bits. -/
def readUlebFrom (shift : ℕ) (result : BitVec 64) : List Byte → BitVec 64 × List Byte
  | [] => (result,[])
  | byte :: p =>
    let result := result ||| (byte &&& 0x7f).setWidth 64 <<< (shift % 64)
    if byte &&& 0x80 = 0 then (result,p) else readUlebFrom (shift+7) result p

def readUleb128 (p : List Byte) : BitVec 64 × List Byte := readUlebFrom 0 0#64 p

/-- The loop of `read_sleb128`: value, shift, last byte and rest. -/
def readSlebFrom (shift : ℕ) (result : BitVec 64) (last : Byte) : List Byte → BitVec 64 × ℕ × Byte × List Byte
  | [] => (result,shift,last,[])
  | byte :: p =>
    let result := result ||| (byte &&& 0x7f).setWidth 64 <<< (shift % 64)
    if byte &&& 0x80 = 0 then (result,shift+7,byte,p) else readSlebFrom (shift+7) result byte p

def readSleb128 (p : List Byte) : BitVec 64 × List Byte :=
  let (result,shift,last,p) := readSlebFrom 0 0#64 0 p
  (if shift < 64 ∧ last &&& 0x40 ≠ 0 then result ||| -(1#64 <<< shift) else result,p)

/-- The groups of seven bits from the `k`-th on, all but the last marked as continued. -/
def encodeLebFrom (v : BitVec 64) : ℕ → ℕ → List Byte
  | 0, k => [(v.extractLsb' (7*k) 7).setWidth 8]
  | n + 1, k => (0x80 ||| (v.extractLsb' (7*k) 7).setWidth 8) :: encodeLebFrom v n (k+1)

def encodeLeb (v : BitVec 64) : List Byte := encodeLebFrom v 9 0

section RoundTrip
variable (v : BitVec 64)

theorem group_low (k : ℕ) : ((v.extractLsb' (7*k) 7).setWidth 8 &&& 0x7f : Byte) = (v.extractLsb' (7*k) 7).setWidth 8 ∧
    ((v.extractLsb' (7*k) 7).setWidth 8 &&& 0x80 : Byte) = 0 := by
  generalize v.extractLsb' (7*k) 7 = g
  revert g
  decide

theorem group_continued (k : ℕ) :
    ((0x80 ||| (v.extractLsb' (7*k) 7).setWidth 8) &&& 0x7f : Byte) = (v.extractLsb' (7*k) 7).setWidth 8 ∧
      ((0x80 ||| (v.extractLsb' (7*k) 7).setWidth 8) &&& 0x80 : Byte) ≠ 0 := by
  generalize v.extractLsb' (7*k) 7 = g
  revert g
  decide

/-- The bits of `v` from the `k`-th group on. -/
def fromGroup (k : ℕ) : BitVec 64 := v >>> (7*k) <<< (7*k)

theorem fromGroup_succ {k : ℕ} (hk : k ≤ 9) :
    ((v.extractLsb' (7*k) 7).setWidth 8 : Byte).setWidth 64 <<< (7*k % 64) ||| fromGroup v (k+1) = fromGroup v k := by
  have hmod : 7*k % 64 = 7*k := Nat.mod_eq_of_lt (by omega)
  apply BitVec.eq_of_getLsbD_eq
  intro i hi
  simp only [fromGroup, hmod, BitVec.getLsbD_or, BitVec.getLsbD_shiftLeft, BitVec.getLsbD_ushiftRight,
    BitVec.getLsbD_setWidth, BitVec.getLsbD_extractLsb', hi, decide_true, Bool.true_and]
  by_cases h1 : i < 7*k
  · have h2 : i < 7*(k+1) := by omega
    simp [h1, h2]
  · by_cases h2 : i < 7*(k+1)
    · have h3 : i - 7*k < 7 := by omega
      have h4 : i - 7*k < 8 := by omega
      have h5 : i - 7*k < 64 := by omega
      simp [h1, h2, h3, h4, h5]
    · have h3 : ¬i - 7*k < 7 := by omega
      have h4 : 7*(k+1) + (i - 7*(k+1)) = 7*k + (i - 7*k) := by omega
      simp [h1, h2, h3, h4]

theorem fromGroup_ten : fromGroup v 10 = 0#64 := by
  apply BitVec.eq_of_getLsbD_eq
  intro i hi
  simp [fromGroup]

theorem readUlebFrom_encode (n k : ℕ) (hk : n + k = 9) (r : BitVec 64) (t : List Byte) :
    readUlebFrom (7*k) r (encodeLebFrom v n k ++ t) = (r ||| fromGroup v k,t) := by
  induction n generalizing k r with
  | zero =>
    obtain rfl : k = 9 := by omega
    obtain ⟨h1,h2⟩ := group_low v 9
    have hs := fromGroup_succ v (k := 9) (by omega)
    rw [fromGroup_ten, BitVec.or_zero] at hs
    simp only [encodeLebFrom, List.cons_append, List.nil_append, readUlebFrom, h1, h2, ↓reduceIte, hs]
  | succ n ih =>
    obtain ⟨h1,h2⟩ := group_continued v k
    simp only [encodeLebFrom, List.cons_append, readUlebFrom, h1, h2, ↓reduceIte]
    rw [show 7*k + 7 = 7*(k+1) by ring, ih (k+1) (by omega), BitVec.or_assoc, fromGroup_succ v (by omega)]

theorem readSlebFrom_encode (n k : ℕ) (hk : n + k = 9) (r : BitVec 64) (last : Byte) (t : List Byte) :
    ∃ last', readSlebFrom (7*k) r last (encodeLebFrom v n k ++ t) = (r ||| fromGroup v k,70,last',t) := by
  induction n generalizing k r last with
  | zero =>
    obtain rfl : k = 9 := by omega
    obtain ⟨h1,h2⟩ := group_low v 9
    have hs := fromGroup_succ v (k := 9) (by omega)
    rw [fromGroup_ten, BitVec.or_zero] at hs
    refine ⟨(v.extractLsb' (7*9) 7).setWidth 8,?_⟩
    simp only [encodeLebFrom, List.cons_append, List.nil_append, readSlebFrom, h1, h2, ↓reduceIte, hs]
  | succ n ih =>
    obtain ⟨h1,h2⟩ := group_continued v k
    obtain ⟨last',h⟩ := ih (k+1) (by omega)
      (r ||| ((v.extractLsb' (7*k) 7).setWidth 8 : Byte).setWidth 64 <<< (7*k % 64))
      (0x80 ||| (v.extractLsb' (7*k) 7).setWidth 8)
    refine ⟨last',?_⟩
    simp only [encodeLebFrom, List.cons_append, readSlebFrom, h1, h2, ↓reduceIte]
    rw [show 7*k + 7 = 7*(k+1) by ring, h, BitVec.or_assoc, fromGroup_succ v (by omega)]

theorem fromGroup_zero : fromGroup v 0 = v := by simp [fromGroup]

theorem readUleb128_encode (t : List Byte) : readUleb128 (encodeLeb v ++ t) = (v,t) := by
  have h := readUlebFrom_encode v 9 0 rfl 0#64 t
  rwa [fromGroup_zero, BitVec.zero_or] at h

theorem readSleb128_encode (t : List Byte) : readSleb128 (encodeLeb v ++ t) = (v,t) := by
  obtain ⟨last,h⟩ := readSlebFrom_encode v 9 0 rfl 0#64 0 t
  rw [fromGroup_zero, BitVec.zero_or] at h
  have h' : readSlebFrom 0 0#64 0 (encodeLeb v ++ t) = (v,70,last,t) := h
  simp only [readSleb128, h', show ¬70 < 64 by decide, false_and, ↓reduceIte]

end RoundTrip

end Machismo.Resolver
