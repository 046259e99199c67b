import Machismo.EhFrame.Unwind

/-! # Frames without a frame pointer

By its compact encoding a function without a frame pointer is a leaf: its return address is still in the
link register, and the pairs it saves lie below the CFA. The emitted instructions look for the return
address at the top of the stack frame instead and have no rules for saved pairs.
-/
namespace Machismo.EhFrame
open A64 (Byte)
open Data Dwarf Relation

/-- The frame of the caller by the compact encoding. -/
def compactFrameless (encoding : BitVec 32) (m : Machine) : Caller :=
  let cfa := m.regs 31 + BitVec.ofNat 64 (encoding.toNat / 2^12 % 2^12 * 16)
  ⟨m.regs 30,Function.update (fun reg =>
    (((savedRegs encoding).idxOf? reg).map fun i => m.mem (cfa - BitVec.ofNat 64 (8 + 8*i))).getD (m.regs reg)) 31 cfa⟩

/-- Registers of zeros over memory of ones. -/
def zerosOverOnes : Machine := ⟨fun _ => 0,fun _ => 1⟩

theorem compactFrameless_saved {encoding : BitVec 32} {reg : ℕ} {regs : List ℕ} (h : savedRegs encoding = reg :: regs) :
    (compactFrameless encoding zerosOverOnes).regs reg = 1 := by
  have hsp : reg ≠ 31 := by
    rintro rfl
    exact (notMem_savedRegs encoding).2.2 (h ▸ List.mem_cons_self)
  unfold compactFrameless
  dsimp only
  rw [Function.update_of_ne hsp, h, List.idxOf?_cons]
  simp [zerosOverOnes]

theorem unwind_initialRow (m : Machine) :
    initialRow.unwind 30 m = ⟨m.regs 30,Function.update m.regs 31 (m.regs 31)⟩ := by
  have hcfa : initialRow.cfa m = m.regs 31 := BitVec.add_zero _
  rw [Row.unwind, hcfa]
  rfl

theorem unwind_pushed {encoding : BitVec 32} (h : stackSize encoding ≠ 0) {pc : ℕ} (hpc : 4 ≤ pc) :
    ((exec 4 (-8) pc (framelessInsns encoding) 0 initialRow).unwind 30 zerosOverOnes).pc = 1 := by
  rw [framelessInsns, if_neg h]
  simp only [exec, if_neg (show ¬pc < 0 + 1*4 by omega)]
  rfl

/-- The rows agree with the compact encoding exactly for functions that neither move the stack pointer nor
save a pair. -/
theorem unwind_framelessInsns_iff (encoding : BitVec 32) :
    (∀ pc ≥ 4, ∀ m, (exec 4 (-8) pc (framelessInsns encoding) 0 initialRow).unwind 30 m = compactFrameless encoding m) ↔
      stackSize encoding = 0 ∧ savedRegs encoding = [] := by
  constructor
  · intro h
    have hstack : stackSize encoding = 0 := by
      by_contra hne
      have hpc := congrArg Caller.pc (h 4 le_rfl zerosOverOnes)
      rw [unwind_pushed hne le_rfl] at hpc
      exact (show (1 : BitVec 64) ≠ 0 by decide) hpc
    refine ⟨hstack,?_⟩
    cases hregs : savedRegs encoding with
    | nil => rfl
    | cons reg regs =>
      have hreg := congrFun (congrArg Caller.regs (h 4 le_rfl zerosOverOnes)) reg
      rw [compactFrameless_saved hregs, framelessInsns, if_pos hstack, exec, unwind_initialRow,
        Function.update_eq_self] at hreg
      exact absurd hreg (show (0 : BitVec 64) ≠ 1 by decide)
  · rintro ⟨hstack,hregs⟩ pc - m
    have hfield : encoding.toNat / 2^12 % 2^12 * 16 = 0 := by
      rw [← toNat_stackSize, hstack]
      rfl
    rw [framelessInsns, if_pos hstack, exec, unwind_initialRow, compactFrameless, hfield]
    simp [hregs]

section Frameless
variable {s₁ s₂ : Ehf} {B : List Byte}

/-- An entry for a function without a frame pointer unwinds as its compact encoding does exactly if the
function neither moves the stack pointer nor saves a pair. -/
theorem emitFdeFrameless_unwind_iff (h₁ : ReflTransGen Emits .empty s₁) (personalityAddr : BitVec 64)
    (h₂ : ReflTransGen Emits (emitCie personalityAddr s₁).2 s₂) (funcAddr : BitVec 64) (funcSize encoding : BitVec 32)
    (lsdaAddr : BitVec 64)
    (hB : (emitFdeFrameless (emitCie personalityAddr s₁).1 funcAddr funcSize encoding lsdaAddr s₂).buf <+: B) :
    ∃ cie fde, readCie (entryAt B (emitCie personalityAddr s₁).1) = some cie ∧
      readFde (entryAt B s₂.pos) = some fde ∧ fde.location = funcAddr.toNat ∧
      ((∀ pc ≥ 4, ∀ m, (fde.row cie pc).unwind cie.returnReg m = compactFrameless encoding m) ↔
        stackSize encoding = 0 ∧ savedRegs encoding = []) := by
  have hlen : (framelessBytes encoding).length < 2^16 := by
    have := length_framelessBytes_le encoding
    omega
  obtain ⟨cie,fde,hcie,hfde,hreturn,hloc,-,-,hrow⟩ := read_back h₁ personalityAddr h₂ (framelessCfi_eq encoding)
    (framelessBytes_encodes encoding) hlen funcAddr funcSize lsdaAddr hB
  refine ⟨cie,fde,hcie,hfde,hloc,?_⟩
  rw [hreturn, ← unwind_framelessInsns_iff]
  simp only [hrow]

/-- A leaf that only compares its arguments. -/
theorem plainLeaf_unwind :
    ∃ cie fde,
      readCie (entryAt (emitFdeFrameless 0 0x100001000 64 0x02000000 0 (emitCie 0 .empty).2).buf 0) = some cie ∧
      readFde (entryAt (emitFdeFrameless 0 0x100001000 64 0x02000000 0 (emitCie 0 .empty).2).buf 24) = some fde ∧
      ∀ pc ≥ 4, ∀ m, (fde.row cie pc).unwind cie.returnReg m = compactFrameless 0x02000000 m := by
  obtain ⟨cie,fde,hcie,hfde,-,hagree⟩ := emitFdeFrameless_unwind_iff .refl 0 .refl 0x100001000 64 0x02000000 0
    (List.prefix_refl _)
  rw [emitCie_eq] at hfde
  exact ⟨cie,fde,hcie,hfde,hagree.mpr (by decide)⟩

/-- A leaf with a stack of sixteen bytes: the return address is taken from the stack. -/
theorem stackLeaf_unwind_differs :
    ∃ cie fde,
      readCie (entryAt (emitFdeFrameless 0 0x100001000 64 0x02001000 0 (emitCie 0 .empty).2).buf 0) = some cie ∧
      readFde (entryAt (emitFdeFrameless 0 0x100001000 64 0x02001000 0 (emitCie 0 .empty).2).buf 24) = some fde ∧
      ¬∀ pc ≥ 4, ∀ m, (fde.row cie pc).unwind cie.returnReg m = compactFrameless 0x02001000 m := by
  have hlen : (framelessBytes 0x02001000).length < 2^16 := by decide
  obtain ⟨cie,fde,hcie,hfde,hreturn,-,-,-,hrow⟩ := read_back .refl 0 .refl (framelessCfi_eq 0x02001000)
    (framelessBytes_encodes 0x02001000) hlen 0x100001000 64 0 (List.prefix_refl _)
  rw [emitCie_eq] at hfde
  refine ⟨cie,fde,hcie,hfde,?_⟩
  simp only [hrow, hreturn, unwind_framelessInsns_iff]
  decide

end Frameless

end Machismo.EhFrame
