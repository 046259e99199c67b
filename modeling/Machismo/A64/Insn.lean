import Machismo.A64.Memory

/-! # A fragment of the A64 instruction set

The instructions an ARMv8.0 core executes for exclusive-access loops and their surroundings:
saving and restoring a register around the stack pointer, the condition flags, load- and
store-exclusive, register arithmetic, conditional select, branches, and the bitwise vector
operations. `decode` reads an instruction word by the encoding diagrams of the architecture
manual; fields the diagrams mark as should-be-one are not inspected, as in implementations.
-/
namespace Machismo.A64

abbrev Word := BitVec 32
abbrev Reg := BitVec 5

abbrev bits (w : Word) (lo n : ℕ) : BitVec n := w.extractLsb' lo n

/-- An operand field shifted to its place in an instruction word. -/
def place {k : ℕ} (x : BitVec k) (p : ℕ) : Word := x.setWidth 32 <<< p

@[simp] theorem bits_literal (v lo n : ℕ) :
    bits (BitVec.ofNat 32 v) lo n = BitVec.ofNat n ((v % 2^32) >>> lo) := by
  apply BitVec.eq_of_toNat_eq
  simp [BitVec.extractLsb'_toNat]

@[simp] theorem bits_or (a b : Word) (lo n : ℕ) : bits (a ||| b) lo n = bits a lo n ||| bits b lo n :=
  BitVec.extractLsb'_or

@[simp] theorem bits_place {k : ℕ} (x : BitVec k) (p : ℕ) (h : p + k ≤ 32) : bits (place x p) p k = x := by
  apply BitVec.eq_of_getLsbD_eq
  intro i hi
  have h1 : p + i < 32 := by omega
  simp [place, hi, h1]

@[simp] theorem bits_place_other {k : ℕ} (x : BitVec k) (p lo n : ℕ) (h : lo + n ≤ p ∨ p + k ≤ lo) :
    bits (place x p) lo n = 0#n := by
  apply BitVec.eq_of_getLsbD_eq
  intro i hi
  simp only [place, BitVec.getLsbD_extractLsb', hi, decide_true, Bool.true_and,
    BitVec.getLsbD_shiftLeft, BitVec.getLsbD_setWidth, BitVec.getLsbD_zero]
  rcases h with h | h
  · have : lo + i < p := by omega
    simp [this]
  · have : k ≤ lo + i - p := by omega
    simp [BitVec.getLsbD_of_ge _ _ this]

theorem and_place_allOnes (w : Word) (p k : ℕ) (h : p + k ≤ 32) :
    w &&& place (BitVec.allOnes k) p = place (bits w p k) p := by
  apply BitVec.eq_of_getLsbD_eq
  intro i hi
  simp only [place, BitVec.getLsbD_and, BitVec.getLsbD_shiftLeft, BitVec.getLsbD_setWidth,
    BitVec.getLsbD_allOnes, BitVec.getLsbD_extractLsb']
  by_cases h1 : i < p
  · simp [h1]
  · by_cases h2 : i - p < k
    · have h3 : p + (i - p) = i := by omega
      have h4 : i - p < 32 := by omega
      simp only [hi, h1, h2, h3, h4, decide_true, decide_false, Bool.not_false, Bool.true_and,
        Bool.and_true]
    · simp [h2]

/-- A mask test over three fields, high to low, is the conjunction of the field tests. -/
theorem masked_eq_iff (w : Word) {p k q l r n : ℕ} (a : BitVec k) (b : BitVec l) (c : BitVec n)
    (hp : p + k ≤ 32) (hq : q + l ≤ p) (hr : r + n ≤ q) :
    w &&& (place (BitVec.allOnes k) p ||| place (BitVec.allOnes l) q ||| place (BitVec.allOnes n) r) =
        place a p ||| place b q ||| place c r ↔
      bits w p k = a ∧ bits w q l = b ∧ bits w r n = c := by
  rw [BitVec.and_or_distrib_left, BitVec.and_or_distrib_left, and_place_allOnes w p k hp,
    and_place_allOnes w q l (by omega), and_place_allOnes w r n (by omega)]
  constructor
  · intro h
    refine ⟨?_,?_,?_⟩
    · simpa (disch := omega) using congrArg (bits · p k) h
    · simpa (disch := omega) using congrArg (bits · q l) h
    · simpa (disch := omega) using congrArg (bits · r n) h
  · rintro ⟨rfl,rfl,rfl⟩
    rfl

inductive AluOp where
  | add | bic | eor | orr
  deriving DecidableEq, Repr

inductive Insn where
  | strPre (rt rn : Reg) (imm : BitVec 9)
  | ldrPost (rt rn : Reg) (imm : BitVec 9)
  | strQPre (vt rn : Reg) (imm : BitVec 9)
  | ldrQPost (vt rn : Reg) (imm : BitVec 9)
  | mrsNzcv (rt : Reg)
  | msrNzcv (rt : Reg)
  | clrex
  | ldxr (size : BitVec 2) (acquire : Bool) (rt rn : Reg)
  | stxr (size : BitVec 2) (release : Bool) (rs rt rn : Reg)
  | alu (op : AluOp) (sf : Bool) (rd rn rm : Reg)
  | subs (sf : Bool) (rd rn rm : Reg)
  | csel (sf : Bool) (rd rn rm : Reg) (cond : BitVec 4)
  | sxt (imms : BitVec 6) (rd rn : Reg)
  | b (imm : BitVec 26)
  | bcond (cond : BitVec 4) (imm : BitVec 19)
  | cbnz (sf : Bool) (rt : Reg) (imm : BitVec 19)
  | vbic (vd vn vm : Reg)
  | veor (vd vn vm : Reg)
  deriving DecidableEq, Repr

section Decode
variable (w : Word)

/-- Bit 31 of a data-processing word selects the 64-bit form. -/
def sfBit : Bool := bits w 31 1 = 1#1

/-- Unshifted register forms: `opc` is the shift and inversion field, `imm6` the shift amount. -/
def decodeReg (opc : BitVec 3) (i : Bool → Reg → Reg → Reg → Insn) : Option Insn :=
  if bits w 21 3 = opc ∧ bits w 10 6 = 0#6 then
    some (i (sfBit w) (bits w 0 5) (bits w 5 5) (bits w 16 5))
  else none

def decodeCsel : Option Insn :=
  if bits w 21 3 = 0b100#3 ∧ bits w 10 2 = 0#2 then
    some (.csel (sfBit w) (bits w 0 5) (bits w 5 5) (bits w 16 5) (bits w 12 4))
  else none

/-- Pre-indexed store and post-indexed load with a 9-bit signed immediate. -/
def decodeIndexed (st ld : BitVec 3) (s l : Reg → Reg → BitVec 9 → Insn) : Option Insn :=
  if bits w 21 3 = st ∧ bits w 10 2 = 0b11#2 then some (s (bits w 0 5) (bits w 5 5) (bits w 12 9))
  else if bits w 21 3 = ld ∧ bits w 10 2 = 0b01#2 then
    some (l (bits w 0 5) (bits w 5 5) (bits w 12 9))
  else none

def decodeExclusive : Option Insn :=
  if bits w 10 5 = 0b11111#5 then
    if bits w 21 3 = 0b010#3 then
      some (.ldxr (bits w 30 2) (bits w 15 1 = 1#1) (bits w 0 5) (bits w 5 5))
    else if bits w 21 3 = 0b000#3 then
      some (.stxr (bits w 30 2) (bits w 15 1 = 1#1) (bits w 16 5) (bits w 0 5) (bits w 5 5))
    else none
  else none

def decodeSystem : Option Insn :=
  if bits w 5 19 = 0x1DA10#19 then some (.mrsNzcv (bits w 0 5))
  else if bits w 5 19 = 0x0DA10#19 then some (.msrNzcv (bits w 0 5))
  else if bits w 12 12 = 0x033#12 ∧ bits w 0 8 = 0x5F#8 then some .clrex
  else none

def decodeVector (opc : BitVec 3) (i : Reg → Reg → Reg → Insn) : Option Insn :=
  if bits w 21 3 = opc ∧ bits w 10 6 = 0b000111#6 then
    some (i (bits w 0 5) (bits w 5 5) (bits w 16 5))
  else none

def decode : Option Insn :=
  if bits w 26 6 = 0b000101#6 then some (.b (bits w 0 26))
  else if bits w 24 6 = 0b001000#6 then decodeExclusive w
  else if bits w 24 8 = 0x54#8 then
    if bits w 4 1 = 0#1 then some (.bcond (bits w 0 4) (bits w 5 19)) else none
  else if bits w 24 7 = 0x35#7 then some (.cbnz (sfBit w) (bits w 0 5) (bits w 5 19))
  else if bits w 24 7 = 0x0B#7 then decodeReg w 0b000#3 (.alu .add)
  else if bits w 24 7 = 0x0A#7 then decodeReg w 0b001#3 (.alu .bic)
  else if bits w 24 7 = 0x4A#7 then decodeReg w 0b000#3 (.alu .eor)
  else if bits w 24 7 = 0x2A#7 then decodeReg w 0b000#3 (.alu .orr)
  else if bits w 24 7 = 0x6B#7 then decodeReg w 0b000#3 .subs
  else if bits w 24 7 = 0x1A#7 then decodeCsel w
  else if bits w 24 8 = 0x13#8 then
    if bits w 16 8 = 0#8 then some (.sxt (bits w 10 6) (bits w 0 5) (bits w 5 5)) else none
  else if bits w 24 8 = 0xF8#8 then decodeIndexed w 0b000#3 0b010#3 .strPre .ldrPost
  else if bits w 24 8 = 0x3C#8 then decodeIndexed w 0b100#3 0b110#3 .strQPre .ldrQPost
  else if bits w 24 8 = 0xD5#8 then decodeSystem w
  else if bits w 24 8 = 0x4E#8 then decodeVector w 0b011#3 .vbic
  else if bits w 24 8 = 0x6E#8 then decodeVector w 0b001#3 .veor
  else none

end Decode

/-- The byte count of an access of encoded size 0, 1, 2 or 3. -/
def bytes (size : BitVec 2) : ℕ := 2^size.toNat

end Machismo.A64
