import Machismo.IsaEmul.RmwRun
import Mathlib.Tactic.FinCases

/-! # The value a read-modify-write island stores

The island works in 32- or 64-bit registers. Its result, cut down to the access width, is the
architectural operation on the cell and the low bits of the operand, except for unsigned minimum
and maximum of bytes and halfwords: there the comparison sees bits 31 down of the operand
register, and an operand with a bit above the access width compares as larger than every cell.
-/
namespace Machismo.IsaEmul
open A64

section Widths
variable {w : ℕ}

theorem setWidth_setWidth_low {a b : ℕ} (h : w ≤ a) (x : BitVec b) : (x.setWidth a).setWidth w = x.setWidth w :=
  BitVec.setWidth_setWidth_of_le x h

theorem setWidth_eval {v : ℕ} (h : w ≤ v) (op : AluOp) (a b : BitVec v) :
    (op.eval a b).setWidth w = op.eval (a.setWidth w) (b.setWidth w) := by
  cases op
  · exact BitVec.setWidth_add a b h
  · simp only [AluOp.eval, BitVec.setWidth_and, BitVec.setWidth_not h]
  · exact BitVec.setWidth_xor
  · exact BitVec.setWidth_or

theorem setWidth_atWidth {sf : Bool} (h : w ≤ if sf then 64 else 32) (op : AluOp) (a b : BitVec 64) :
    (atWidth sf (fun a b => op.eval a b) a b).setWidth w = op.eval (a.setWidth w) (b.setWidth w) := by
  cases sf
  · simp only [Bool.false_eq_true, ↓reduceIte] at h
    simp only [atWidth, Bool.false_eq_true, ↓reduceIte]
    rw [setWidth_setWidth_low (by omega), setWidth_eval h, setWidth_setWidth_low h, setWidth_setWidth_low h]
  · exact setWidth_eval h op a b

theorem setWidth_cselValue {sf : Bool} (h : w ≤ if sf then 64 else 32) (taken : Bool) (r a : BitVec 64) :
    (cselValue sf taken r a).setWidth w = if taken then r.setWidth w else a.setWidth w := by
  cases sf
  · simp only [Bool.false_eq_true, ↓reduceIte] at h
    simp only [cselValue, Bool.false_eq_true, ↓reduceIte]
    rw [setWidth_setWidth_low (by omega), setWidth_setWidth_low h]
    cases taken <;> rfl
  · cases taken <;> rfl

end Widths

theorem size_narrow {size : BitVec 2} (h : size.toNat < 2) : size = 0#2 ∨ size = 1#2 := by
  revert size; decide

theorem size_wide {size : BitVec 2} (h : ¬size.toNat < 2) : size = 2#2 ∨ size = 3#2 := by
  revert size; decide

theorem bytes_pos (size : BitVec 2) : 0 < bytes size := by
  revert size; decide

theorem bytes_narrow {size : BitVec 2} (h : size.toNat < 2) : bytes size ≤ 2 := by
  revert size; decide

/-- The register operand of a byte or halfword comparison has a bit above the access width. -/
def WideOperand (size : BitVec 2) (s : BitVec 64) : Prop :=
  size.toNat < 2 ∧ 2^(8*bytes size) ≤ (s.setWidth 32).toNat

instance (size : BitVec 2) (s : BitVec 64) : Decidable (WideOperand size s) :=
  inferInstanceAs (Decidable (_ ∧ _))

section Value
variable (d : LseDecoded) (v : BitVec (8*bytes d.size)) (s : BitVec 64)

theorem width_le (d : LseDecoded) : 8*bytes d.size ≤ if d.isX then 64 else 32 := by
  unfold LseDecoded.isX
  generalize d.size = size
  revert size
  decide

theorem cell_setWidth : (v.setWidth 64).setWidth (8*bytes d.size) = v := by
  have := bytes_le_eight d.size
  rw [setWidth_setWidth_low (by omega), BitVec.setWidth_eq]

theorem flagsAtWidth_wide (h : ¬d.size.toNat < 2) :
    flagsAtWidth d.isX (v.setWidth 64) s = subFlags v (s.setWidth (8*bytes d.size)) := by
  rcases d with ⟨op,size,acquire,release,rs,rt,rn⟩
  rcases size_wide h with rfl | rfl
  · exact congrArg (subFlags · (s.setWidth 32)) (cell_setWidth _ v)
  · exact congrArg₂ subFlags (BitVec.setWidth_eq v) (BitVec.setWidth_eq s).symm

theorem setWidth_sxtValue (imms : BitVec 6) (a : BitVec 64) :
    (sxtValue imms a).setWidth 32 = (a.setWidth (imms.toNat+1)).signExtend 32 := by
  rw [sxtValue, setWidth_setWidth_low (by omega), BitVec.setWidth_eq]

theorem slt_signExtend {w k : ℕ} (h : w ≤ k) (a b : BitVec w) :
    (a.signExtend k).slt (b.signExtend k) = a.slt b := by
  rw [BitVec.slt_eq_decide, BitVec.slt_eq_decide, BitVec.toInt_signExtend_of_le h, BitVec.toInt_signExtend_of_le h]

/-- A byte or halfword comparison after sign extension, with the cell and the operand both extended. -/
theorem signedFlags_narrow (h : d.size.toNat < 2) :
    signedFlags d (v.setWidth 64) s =
      subFlags (v.signExtend 32) ((s.setWidth (8*bytes d.size)).signExtend 32) := by
  rcases d with ⟨op,size,acquire,release,rs,rt,rn⟩
  simp only [signedFlags, if_pos h, flagsAtWidth, Bool.false_eq_true, ↓reduceIte, setWidth_sxtValue]
  rcases size_narrow h with rfl | rfl
  · exact congrArg (fun x : BitVec 8 => subFlags (x.signExtend 32) ((s.setWidth 8).signExtend 32))
      (cell_setWidth _ v)
  · exact congrArg (fun x : BitVec 16 => subFlags (x.signExtend 32) ((s.setWidth 16).signExtend 32))
      (cell_setWidth _ v)

/-- The signed conditions compare the cell with the low bits of the operand, at every size. -/
theorem signed_less : condHolds condLT (signedFlags d (v.setWidth 64) s) = v.slt (s.setWidth (8*bytes d.size)) ∧
    condHolds condGT (signedFlags d (v.setWidth 64) s) = (s.setWidth (8*bytes d.size)).slt v := by
  have hpos := bytes_pos d.size
  by_cases h : d.size.toNat < 2
  · have hle := bytes_narrow h
    rw [signedFlags_narrow d v s h]
    exact ⟨(condHolds_lt (by omega) _ _).trans (slt_signExtend (by omega) _ _),
      (condHolds_gt (by omega) _ _).trans (slt_signExtend (by omega) _ _)⟩
  · simp only [signedFlags, if_neg h, flagsAtWidth_wide d v s h]
    exact ⟨condHolds_lt (by omega) _ _,condHolds_gt (by omega) _ _⟩

theorem flagsAtWidth_narrow (h : d.size.toNat < 2) :
    flagsAtWidth d.isX (v.setWidth 64) s = subFlags (v.setWidth 32) (s.setWidth 32) := by
  have hX : d.isX = false := by
    unfold LseDecoded.isX
    rcases size_narrow h with hs | hs <;> simp [hs]
  simp only [hX, flagsAtWidth, Bool.false_eq_true, ↓reduceIte, setWidth_setWidth_low (show 32 ≤ 64 by omega)]

theorem toNat_narrow (h : d.size.toNat < 2) : (v.setWidth 32).toNat = v.toNat := by
  have hb := bytes_narrow h
  exact BitVec.toNat_setWidth_of_le (by omega)

theorem toNat_low_of_not_wide (h : d.size.toNat < 2) (hs : ¬WideOperand d.size s) :
    (s.setWidth 32).toNat = (s.setWidth (8*bytes d.size)).toNat := by
  have hb := bytes_narrow h
  have hlt : (s.setWidth 32).toNat < 2^(8*bytes d.size) := by
    by_contra hge
    exact hs ⟨h,by omega⟩
  rw [← setWidth_setWidth_low (show 8*bytes d.size ≤ 32 by omega) s, BitVec.toNat_setWidth (8*bytes d.size),
    Nat.mod_eq_of_lt hlt]

/-- The unsigned conditions compare with the low bits of the operand, unless it is wide. -/
theorem unsigned_less (hs : ¬WideOperand d.size s) :
    condHolds condLO (flagsAtWidth d.isX (v.setWidth 64) s) = v.ult (s.setWidth (8*bytes d.size)) ∧
    condHolds condHI (flagsAtWidth d.isX (v.setWidth 64) s) = (s.setWidth (8*bytes d.size)).ult v := by
  by_cases h : d.size.toNat < 2
  · simp only [flagsAtWidth_narrow d v s h, condLO, condHI, condHolds_lo, condHolds_hi, BitVec.ult,
      toNat_narrow d v h, toNat_low_of_not_wide d s h hs, and_self]
  · simp only [flagsAtWidth_wide d v s h]
    exact ⟨condHolds_lo _ _,condHolds_hi _ _⟩

/-- The equality test compares with the low bits of the operand, and fails against a wide one. -/
theorem equal_iff : condHolds condNE (flagsAtWidth d.isX (v.setWidth 64) s) = false ↔
    v = s.setWidth (8*bytes d.size) ∧ ¬WideOperand d.size s := by
  by_cases h : d.size.toNat < 2
  · rw [flagsAtWidth_narrow d v s h, condNE, condHolds_ne, decide_eq_false_iff_not, not_not, BitVec.toNat_eq,
      toNat_narrow d v h, BitVec.toNat_eq]
    by_cases hs : WideOperand d.size s
    · have hv := v.isLt
      have hw := hs.2
      simp only [hs, not_true_eq_false, and_false, iff_false]
      omega
    · simp only [hs, not_false_eq_true, and_true, toNat_low_of_not_wide d s h hs]
  · have hs : ¬WideOperand d.size s := fun hs => h hs.1
    rw [flagsAtWidth_wide d v s h, condNE, condHolds_ne]
    simp [hs]

theorem unsigned_less_wide (hs : WideOperand d.size s) :
    condHolds condLO (flagsAtWidth d.isX (v.setWidth 64) s) = true ∧
    condHolds condHI (flagsAtWidth d.isX (v.setWidth 64) s) = false := by
  have hv := v.isLt
  have hw := hs.2
  simp only [flagsAtWidth_narrow d v s hs.1, condLO, condHI, condHolds_lo, condHolds_hi, BitVec.ult,
    toNat_narrow d v hs.1, decide_eq_true_eq, decide_eq_false_iff_not]
  omega

end Value

/-- The operation an island performs: a wide operand turns the unsigned maximum into a swap and the
unsigned minimum into a write of the old value. -/
def emulated (op : RmwOp) (size : BitVec 2) (v : BitVec (8*bytes size)) (s : BitVec 64) :
    BitVec (8*bytes size) :=
  if WideOperand size s ∧ op = .ldumax then s.setWidth _
  else if WideOperand size s ∧ op = .ldumin then v
  else op.apply v (s.setWidth _)

theorem newVal_low (op : RmwOp) (size : BitVec 2) (acquire release : Bool) (rs rt rn : Reg)
    (v : BitVec (8*bytes size)) (s : BitVec 64) :
    (newVal ⟨.ofRmw op,size,acquire,release,rs,rt,rn⟩ (v.setWidth 64) s).setWidth (8*bytes size) =
      emulated op size v s := by
  obtain ⟨d,hd⟩ : ∃ d : LseDecoded, d = ⟨.ofRmw op,size,acquire,release,rs,rt,rn⟩ := ⟨_,rfl⟩
  obtain rfl : d.size = size := by rw [hd]
  have hw := width_le d
  have hv := cell_setWidth d v
  have hop : d.op = .ofRmw op := by rw [hd]
  have hsig := signed_less d v s
  rw [← hd]
  unfold newVal emulated
  rw [hop]
  cases op <;> simp only [LseOp.ofRmw, reduceCtorEq, and_false, and_true, ↓reduceIte, RmwOp.apply]
  case ldadd | ldclr | ldeor | ldset => rw [setWidth_atWidth hw, hv, AluOp.eval]
  case swp => rw [setWidth_atWidth hw, AluOp.eval, BitVec.setWidth_zero, BitVec.zero_or]
  case ldsmax | ldsmin => simp only [setWidth_cselValue hw, hv, hsig]
  case ldumax | ldumin =>
    by_cases hs : WideOperand d.size s
    · simp [setWidth_cselValue hw, hv, hs, unsigned_less_wide d v s hs]
    · simp only [setWidth_cselValue hw, hv, hs, unsigned_less d v s hs, ↓reduceIte]

theorem emulated_of_not_wide {op : RmwOp} {size : BitVec 2} (v : BitVec (8*bytes size)) {s : BitVec 64}
    (h : ¬WideOperand size s) : emulated op size v s = op.apply v (s.setWidth _) := by
  simp [emulated, h]

end Machismo.IsaEmul
