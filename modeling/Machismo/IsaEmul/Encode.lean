import Machismo.A64.Insn

/-! # The instruction encoders of the island generator

Each encoder is followed by the instruction its word decodes to. The decoder is independent of
the encoders, so these equations say that the emitted words mean what their names say.
-/
namespace Machismo.IsaEmul
open A64

def encB (wordOffset : ℤ) : Word := 0x14000000#32 ||| (BitVec.ofInt 32 wordOffset &&& 0x03FFFFFF#32)

def encCbnzW (rt : Reg) (wordOffset : ℤ) : Word :=
  0x35000000#32 ||| ((BitVec.ofInt 32 wordOffset &&& 0x7FFFF#32) <<< 5) ||| place rt 0

def encStrPre (rt : Reg) : Word := 0xF81F0FE0#32 ||| place rt 0
def encLdrPost (rt : Reg) : Word := 0xF84107E0#32 ||| place rt 0
def encMrsNzcv (rt : Reg) : Word := 0xD53B4200#32 ||| place rt 0
def encMsrNzcv (rt : Reg) : Word := 0xD51B4200#32 ||| place rt 0

def encLdxr (size : BitVec 2) (acquire : Bool) (rt rn : Reg) : Word :=
  (if acquire then 0x08407C00#32 ||| (1#32 <<< 15) else 0x08407C00#32) ||| place size 30 |||
    place rn 5 ||| place rt 0

def encStxr (size : BitVec 2) (release : Bool) (rs rt rn : Reg) : Word :=
  (if release then 0x08007C00#32 ||| (1#32 <<< 15) else 0x08007C00#32) ||| place size 30 |||
    place rs 16 ||| place rn 5 ||| place rt 0

/-- The shape shared by the register-register encoders. -/
def encReg (base64 base32 : Word) (is64 : Bool) (rd rn rm : Reg) : Word :=
  (if is64 then base64 else base32) ||| place rm 16 ||| place rn 5 ||| place rd 0

def encAdd := encReg 0x8B000000#32 0x0B000000#32
def encBic := encReg 0x8A200000#32 0x0A200000#32
def encEor := encReg 0xCA000000#32 0x4A000000#32
def encOrr := encReg 0xAA000000#32 0x2A000000#32
def encCmp (is64 : Bool) (rn rm : Reg) : Word := encReg 0xEB000000#32 0x6B000000#32 is64 31#5 rn rm
def encMov (is64 : Bool) (rd rn : Reg) : Word := encOrr is64 rd 31#5 rn

def encCsel (is64 : Bool) (rd rn rm : Reg) (cond : BitVec 4) : Word :=
  (if is64 then 0x9A800000#32 else 0x1A800000#32) ||| place rm 16 ||| place cond 12 |||
    place rn 5 ||| place rd 0

def encSxtb (rd rn : Reg) : Word := 0x13001C00#32 ||| place rn 5 ||| place rd 0
def encSxth (rd rn : Reg) : Word := 0x13003C00#32 ||| place rn 5 ||| place rd 0

def encBcond (cond : BitVec 4) (words : BitVec 32) : Word :=
  0x54000000#32 ||| (words <<< 5) ||| place cond 0

def encClrex : Word := 0xD5033F5F#32

def condGT : BitVec 4 := 0xC#4
def condLT : BitVec 4 := 0xB#4
def condHI : BitVec 4 := 0x8#4
def condLO : BitVec 4 := 0x3#4
def condNE : BitVec 4 := 0x1#4

def encNeonBic (vd vn vm : Reg) : Word := 0x4E601C00#32 ||| place vm 16 ||| place vn 5 ||| place vd 0
def encNeonEor (vd vn vm : Reg) : Word := 0x6E201C00#32 ||| place vm 16 ||| place vn 5 ||| place vd 0
def encStrQPre (vt : Reg) : Word := 0x3C9F0FE0#32 ||| place vt 0
def encLdrQPost (vt : Reg) : Word := 0x3CC107E0#32 ||| place vt 0

section Decode
variable (is64 : Bool) (rd rn rm rs rt vd vn vm : Reg) (size : BitVec 2) (cond : BitVec 4)

theorem decode_encStrPre : decode (encStrPre rt) = some (.strPre rt 31#5 0x1F0#9) := by
  revert rt; decide

theorem decode_encLdrPost : decode (encLdrPost rt) = some (.ldrPost rt 31#5 0x010#9) := by
  revert rt; decide

theorem decode_encStrQPre : decode (encStrQPre vd) = some (.strQPre vd 31#5 0x1F0#9) := by
  revert vd; decide

theorem decode_encLdrQPost : decode (encLdrQPost vd) = some (.ldrQPost vd 31#5 0x010#9) := by
  revert vd; decide

theorem decode_encMrsNzcv : decode (encMrsNzcv rt) = some (.mrsNzcv rt) := by
  revert rt; decide

theorem decode_encMsrNzcv : decode (encMsrNzcv rt) = some (.msrNzcv rt) := by
  revert rt; decide

theorem decode_encClrex : decode encClrex = some .clrex := by decide

theorem decode_encLdxr (acquire : Bool) :
    decode (encLdxr size acquire rt rn) = some (.ldxr size acquire rt rn) := by
  cases acquire <;> simp [encLdxr, decode, decodeExclusive] <;> revert size <;> decide

theorem decode_encStxr (release : Bool) :
    decode (encStxr size release rs rt rn) = some (.stxr size release rs rt rn) := by
  cases release <;> simp [encStxr, decode, decodeExclusive] <;> revert size <;> decide

theorem decode_encAdd : decode (encAdd is64 rd rn rm) = some (.alu .add is64 rd rn rm) := by
  cases is64 <;> simp [encAdd, encReg, decode, decodeReg, sfBit]

theorem decode_encBic : decode (encBic is64 rd rn rm) = some (.alu .bic is64 rd rn rm) := by
  cases is64 <;> simp [encBic, encReg, decode, decodeReg, sfBit]

theorem decode_encEor : decode (encEor is64 rd rn rm) = some (.alu .eor is64 rd rn rm) := by
  cases is64 <;> simp [encEor, encReg, decode, decodeReg, sfBit]

theorem decode_encOrr : decode (encOrr is64 rd rn rm) = some (.alu .orr is64 rd rn rm) := by
  cases is64 <;> simp [encOrr, encReg, decode, decodeReg, sfBit]

theorem decode_encCmp : decode (encCmp is64 rn rm) = some (.subs is64 31#5 rn rm) := by
  cases is64 <;> simp [encCmp, encReg, decode, decodeReg, sfBit]

theorem decode_encMov : decode (encMov is64 rd rn) = some (.alu .orr is64 rd 31#5 rn) :=
  decode_encOrr is64 rd 31#5 rn

theorem decode_encCsel : decode (encCsel is64 rd rn rm cond) = some (.csel is64 rd rn rm cond) := by
  cases is64 <;> simp [encCsel, decode, decodeCsel, sfBit]

theorem decode_encSxtb : decode (encSxtb rd rn) = some (.sxt 7#6 rd rn) := by
  simp [encSxtb, decode]

theorem decode_encSxth : decode (encSxth rd rn) = some (.sxt 15#6 rd rn) := by
  simp [encSxth, decode]

theorem decode_encNeonBic : decode (encNeonBic vd vn vm) = some (.vbic vd vn vm) := by
  simp [encNeonBic, decode, decodeVector]

theorem decode_encNeonEor : decode (encNeonEor vd vn vm) = some (.veor vd vn vm) := by
  simp [encNeonEor, decode, decodeVector]

theorem setWidth_ofInt (off : ℤ) {k n : ℕ} (hk : k ≤ n) :
    (BitVec.ofInt n off).setWidth k = BitVec.ofInt k off := by
  rw [← BitVec.signExtend_eq_setWidth_of_le _ hk]
  apply BitVec.eq_of_toInt_eq
  simp only [BitVec.toInt_signExtend, BitVec.toInt_ofInt, Nat.min_eq_left hk]
  exact Int.bmod_bmod_of_dvd (Nat.pow_dvd_pow 2 hk)

theorem ofInt_and_mask (off : ℤ) (k : ℕ) (hk : k ≤ 32) :
    BitVec.ofInt 32 off &&& BitVec.ofNat 32 (2^k - 1) = place (BitVec.ofInt k off) 0 := by
  apply BitVec.eq_of_getLsbD_eq
  intro i hi
  rw [← setWidth_ofInt off hk]
  simp only [place, BitVec.getLsbD_and, BitVec.getLsbD_ofNat, Nat.testBit_two_pow_sub_one,
    BitVec.shiftLeft_zero, BitVec.getLsbD_setWidth, hi, decide_true, Bool.true_and]
  rw [Bool.and_comm]

theorem place_shiftLeft {k : ℕ} (x : BitVec k) (p : ℕ) : place x 0 <<< p = place x p := by
  simp [place]

theorem decode_encB (off : ℤ) : decode (encB off) = some (.b (BitVec.ofInt 26 off)) := by
  have h : BitVec.ofInt 32 off &&& 0x03FFFFFF#32 = place (BitVec.ofInt 26 off) 0 :=
    ofInt_and_mask off 26 (by decide)
  simp [encB, h, decode]

theorem decode_encCbnzW (off : ℤ) :
    decode (encCbnzW rt off) = some (.cbnz false rt (BitVec.ofInt 19 off)) := by
  have h : BitVec.ofInt 32 off &&& 0x7FFFF#32 = place (BitVec.ofInt 19 off) 0 :=
    ofInt_and_mask off 19 (by decide)
  simp [encCbnzW, h, place_shiftLeft, decode, sfBit]

theorem decode_encBcond (words : BitVec 19) :
    decode (encBcond cond (words.setWidth 32)) = some (.bcond cond words) := by
  have h : words.setWidth 32 <<< 5 = place words 5 := rfl
  simp [encBcond, h, decode]

end Decode
end Machismo.IsaEmul
