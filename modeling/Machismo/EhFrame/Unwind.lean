import Machismo.EhFrame.Instructions
import Mathlib.Logic.Relation

/-! # Unwinding through emitted entries

Entries are appended one after the other and never changed again. So a CIE and an entry that refers to
it are read back from the buffer whatever is emitted before them, between them and after them, and the
row they give past the first instruction of the function can be compared with the frame that the compact
encoding describes.
-/
namespace Machismo.EhFrame
open A64 (Byte)
open Data Dwarf Relation

inductive Emits : Ehf → Ehf → Prop
  | cie (personalityAddr : BitVec 64) (s : Ehf) : Emits s (emitCie personalityAddr s).2
  | frame (cieOffset : ℕ) (funcAddr : BitVec 64) (funcSize encoding : BitVec 32) (lsdaAddr : BitVec 64) (s : Ehf) :
      Emits s (emitFdeFrame cieOffset funcAddr funcSize encoding lsdaAddr s)
  | frameless (cieOffset : ℕ) (funcAddr : BitVec 64) (funcSize encoding : BitVec 32) (lsdaAddr : BitVec 64) (s : Ehf) :
      Emits s (emitFdeFrameless cieOffset funcAddr funcSize encoding lsdaAddr s)
  | minimal (cieOffset : ℕ) (funcAddr : BitVec 64) (funcSize : BitVec 32) (lsdaAddr : BitVec 64) (s : Ehf) :
      Emits s (emitFdeMinimal cieOffset funcAddr funcSize lsdaAddr s)

def Ehf.empty : Ehf := ⟨[],[]⟩

theorem add_padding (pos : ℕ) : (pos + padding pos) % 8 = 0 := by
  unfold padding
  omega

theorem pos_entry (s : Ehf) (body : List Byte) : (s.entry body).pos = s.pos + 4 + body.length := by
  simp [Ehf.entry, Ehf.pos, withLength, Nat.add_assoc]

theorem pos_entry_padded (s : Ehf) (bs : List Byte) :
    (s.entry (bs ++ List.replicate (padding (s.pos + 4 + bs.length)) 0)).pos % 8 = 0 := by
  rw [pos_entry, List.length_append, List.length_replicate, ← Nat.add_assoc]
  exact add_padding _

theorem Emits.appends {s s' : Ehf} (h : Emits s s') : s.buf <+: s'.buf ∧ s'.pos % 8 = 0 := by
  have hfde : ∀ (bs : List Byte) cieOffset funcAddr funcSize lsdaAddr,
      s.buf <+: (s.entry (fdeBody bs cieOffset funcAddr funcSize lsdaAddr s.pos)).buf ∧
      (s.entry (fdeBody bs cieOffset funcAddr funcSize lsdaAddr s.pos)).pos % 8 = 0 :=
    fun bs cieOffset funcAddr funcSize lsdaAddr => ⟨List.prefix_append _ _,pos_entry_padded s _⟩
  cases h with
  | cie personalityAddr =>
    rw [emitCie_eq]
    exact ⟨List.prefix_append _ _,pos_entry_padded s _⟩
  | frame cieOffset funcAddr funcSize encoding lsdaAddr =>
    rw [emitFdeFrame, emitFde_eq (frameCfi_eq encoding)]
    exact hfde _ _ _ _ _
  | frameless cieOffset funcAddr funcSize encoding lsdaAddr =>
    rw [emitFdeFrameless, emitFde_eq (framelessCfi_eq encoding)]
    exact hfde _ _ _ _ _
  | minimal cieOffset funcAddr funcSize lsdaAddr =>
    rw [emitFdeMinimal, emitFde_eq fun s => (push_nil s).symm]
    exact hfde _ _ _ _ _

theorem run_appends {s s' : Ehf} (h : ReflTransGen Emits s s') :
    s.buf <+: s'.buf ∧ (s.pos % 8 = 0 → s'.pos % 8 = 0) := by
  induction h with
  | refl => exact ⟨List.prefix_rfl,id⟩
  | tail _ hstep ih => exact ⟨ih.1.trans hstep.appends.1,fun _ => hstep.appends.2⟩

theorem entryAt_entry {s : Ehf} {body B : List Byte} (hlen : body.length < 2^32) (hB : (s.entry body).buf <+: B) :
    entryAt B s.pos = body := by
  obtain ⟨after,rfl⟩ := hB
  exact entryAt_withLength hlen s.buf after

theorem length_cieBody_le (personalityAddr : BitVec 64) (pos : ℕ) : (cieBody personalityAddr pos).length ≤ 36 := by
  have hfields : (cieFields personalityAddr).length ≤ 28 := by
    unfold cieFields
    split <;> simp
  have hpad : padding (pos + 4 + (cieFields personalityAddr).length) < 8 := Nat.mod_lt _ (by decide)
  rw [cieBody, List.length_append, List.length_replicate]
  omega

theorem length_fdeBody_le (bs : List Byte) (cieOffset : ℕ) (funcAddr : BitVec 64) (funcSize : BitVec 32)
    (lsdaAddr : BitVec 64) (pos : ℕ) :
    (fdeBody bs cieOffset funcAddr funcSize lsdaAddr pos).length ≤ bs.length + 37 := by
  have haug : (augmentationBytes lsdaAddr).length ≤ 9 := by
    unfold augmentationBytes
    split <;> simp
  have hfields : (fdeFields cieOffset funcAddr funcSize lsdaAddr pos ++ bs).length ≤ bs.length + 29 := by
    simp only [fdeFields, List.length_append, length_leBytes]
    omega
  have hpad : ∀ n, padding n < 8 := fun n => Nat.mod_lt _ (by decide)
  have := hpad (pos + 4 + (fdeFields cieOffset funcAddr funcSize lsdaAddr pos ++ bs).length)
  rw [fdeBody, List.length_append, List.length_replicate]
  omega

def initialRow : Row := ⟨31,0,fun _ => none⟩

section ReadBack
variable {s₁ s₂ : Ehf} {f : Ehf → Ehf} {bs B : List Byte} {insns : List CfaInsn}

/-- An entry and its CIE are read back from any buffer that extends the one they were emitted to. -/
theorem read_back (h₁ : ReflTransGen Emits .empty s₁) (personalityAddr : BitVec 64)
    (h₂ : ReflTransGen Emits (emitCie personalityAddr s₁).2 s₂) (hf : ∀ s, f s = s.push bs) (hbs : Encodes bs insns)
    (hlen : bs.length < 2^16) (funcAddr : BitVec 64) (funcSize : BitVec 32) (lsdaAddr : BitVec 64)
    (hB : (emitFde f (emitCie personalityAddr s₁).1 funcAddr funcSize lsdaAddr s₂).buf <+: B) :
    ∃ cie fde, readCie (entryAt B (emitCie personalityAddr s₁).1) = some cie ∧
      readFde (entryAt B s₂.pos) = some fde ∧ cie.returnReg = 30 ∧ fde.location = funcAddr.toNat ∧
      fde.range = funcSize.toNat ∧ fde.ciePointer = (s₂.pos + 4 - (emitCie personalityAddr s₁).1) % 2^32 ∧
      ∀ pc, fde.row cie pc = exec 4 (-8) pc insns 0 initialRow := by
  have hpos₁ : s₁.pos % 8 = 0 := (run_appends h₁).2 rfl
  obtain ⟨hgrown,haligned⟩ := run_appends h₂
  have hpos₂ := haligned (Emits.cie personalityAddr s₁).appends.2
  rw [emitCie_eq] at hgrown hB ⊢
  dsimp only at hgrown hB ⊢
  rw [emitFde_eq hf] at hB
  have hcie := entryAt_entry (s := s₁) (by have := length_cieBody_le personalityAddr s₁.pos; omega)
    (hgrown.trans ((List.prefix_append _ _).trans hB))
  have hfde := entryAt_entry (s := s₂) (by
    have := length_fdeBody_le bs s₁.pos funcAddr funcSize lsdaAddr s₂.pos
    omega) hB
  obtain ⟨cie,n,hcie',hcode,hdata,hreturn,hinsns,-⟩ := readCie_cieBody personalityAddr s₁.pos
  -- The distance is a multiple of eight and four more, so it is no mark of a CIE.
  have hle : s₁.pos ≤ s₂.pos := ((List.prefix_append _ _).trans hgrown).length_le
  obtain ⟨k,hfde'⟩ : ∃ n, readFde (fdeBody bs s₁.pos funcAddr funcSize lsdaAddr s₂.pos) =
      some ⟨_,_,_,_,insns ++ List.replicate n .nop⟩ := readFde_fdeBody hbs (by omega)
  rw [← hcie] at hcie'
  rw [← hfde] at hfde'
  refine ⟨cie,_,hcie',hfde',hreturn,rfl,rfl,rfl,fun pc => ?_⟩
  rw [Fde.row, hcode, hdata, hinsns, exec_append_nops]
  exact congrArg _ (exec_append_nops 4 (-8) pc [.defCfa 31 0] n 0 _)

end ReadBack

/-- The frame of a function with a frame pointer: the frame record at the top, and below it the saved
registers in the order of the encoding. -/
structure FrameLayout (encoding : BitVec 32) (row : Row) : Prop where
  cfa : row.cfaReg = 29 ∧ row.cfaOff = 16
  lr : row.rule 30 = some (-8)
  fp : row.rule 29 = some (-16)
  saved : ∀ i : ℕ, (h : i < (savedRegs encoding).length) →
    row.rule ((savedRegs encoding).get ⟨i,h⟩) = some (-24 - 8*(i : ℤ))
  others : ∀ reg, reg ≠ 30 → reg ≠ 29 → reg ∉ savedRegs encoding → row.rule reg = none

theorem exec_offsetsFrom (codeAlign : ℕ) (dataAlign : ℤ) (pc slot loc : ℕ) (regs : List ℕ) (row : Row) :
    (exec codeAlign dataAlign pc (offsetsFrom slot regs) loc row).cfaReg = row.cfaReg ∧
    (exec codeAlign dataAlign pc (offsetsFrom slot regs) loc row).cfaOff = row.cfaOff ∧
    ∀ reg ∉ regs, (exec codeAlign dataAlign pc (offsetsFrom slot regs) loc row).rule reg = row.rule reg := by
  induction regs generalizing slot row with
  | nil => exact ⟨rfl,rfl,fun _ _ => rfl⟩
  | cons r regs ih =>
    obtain ⟨hreg,hoff,hrule⟩ := ih (slot+1) { row with rule := Function.update row.rule r (some (slot*dataAlign)) }
    refine ⟨hreg,hoff,fun reg hmem => ?_⟩
    have hne := List.ne_of_not_mem_cons hmem
    rw [offsetsFrom, exec, hrule reg (List.not_mem_of_not_mem_cons hmem)]
    exact Function.update_of_ne hne _ _

theorem exec_offsetsFrom_rule (codeAlign : ℕ) (dataAlign : ℤ) (pc slot loc : ℕ) {regs : List ℕ} (hnodup : regs.Nodup)
    (row : Row) {i : ℕ} (h : i < regs.length) :
    (exec codeAlign dataAlign pc (offsetsFrom slot regs) loc row).rule (regs.get ⟨i,h⟩) =
      some ((slot + i : ℕ)*dataAlign) := by
  induction regs generalizing slot row i with
  | nil => cases h
  | cons r regs ih =>
    obtain ⟨hr,hregs⟩ := List.nodup_cons.mp hnodup
    cases i with
    | zero =>
      obtain ⟨-,-,hrule⟩ := exec_offsetsFrom codeAlign dataAlign pc (slot+1) loc regs
        { row with rule := Function.update row.rule r (some (slot*dataAlign)) }
      rw [offsetsFrom, exec]
      exact (hrule r hr).trans (Function.update_self r _ _)
    | succ i =>
      have hi := ih (slot+1) hregs { row with rule := Function.update row.rule r (some (slot*dataAlign)) }
        (Nat.lt_of_succ_lt_succ h)
      have hslot : slot + (i+1) = slot + 1 + i := by omega
      rw [offsetsFrom, exec, hslot]
      exact hi

theorem frameLayout_exec (encoding : BitVec 32) {pc : ℕ} (hpc : 4 ≤ pc) :
    FrameLayout encoding (exec 4 (-8) pc
      (.advanceLoc 1 :: .defCfa 29 16 :: .offset 30 1 :: .offset 29 2 :: offsetsFrom 3 (savedRegs encoding)) 0
      initialRow) := by
  obtain ⟨hfp,hlr,-⟩ := notMem_savedRegs encoding
  simp only [exec, if_neg (show ¬pc < 0 + 1*4 by omega), initialRow]
  set row : Row := ⟨29,16,Function.update (Function.update (fun _ => none) 30 _) 29 _⟩
  obtain ⟨hreg,hoff,hrule⟩ := exec_offsetsFrom 4 (-8) pc 3 (0 + 1*4) (savedRegs encoding) row
  refine ⟨⟨hreg,hoff⟩,?_,?_,?_,?_⟩
  · rw [hrule 30 hlr]
    rfl
  · rw [hrule 29 hfp]
    rfl
  · intro i h
    rw [exec_offsetsFrom_rule 4 (-8) pc 3 (0 + 1*4) (nodup_savedRegs encoding) row h]
    congr 1
    push_cast
    ring
  · intro reg h30 h29 hsaved
    rw [hrule reg hsaved]
    exact (Function.update_of_ne h29 _ _).trans (Function.update_of_ne h30 _ _)

/-- For a program counter past the first instruction the entries describe the frame of the compact
encoding, whatever has been emitted before them, between them and after them. -/
theorem emitFdeFrame_layout {s₁ s₂ : Ehf} {B : List Byte} (h₁ : ReflTransGen Emits .empty s₁)
    (personalityAddr : BitVec 64) (h₂ : ReflTransGen Emits (emitCie personalityAddr s₁).2 s₂) (funcAddr : BitVec 64)
    (funcSize encoding : BitVec 32) (lsdaAddr : BitVec 64)
    (hB : (emitFdeFrame (emitCie personalityAddr s₁).1 funcAddr funcSize encoding lsdaAddr s₂).buf <+: B) :
    ∃ cie fde, readCie (entryAt B (emitCie personalityAddr s₁).1) = some cie ∧
      readFde (entryAt B s₂.pos) = some fde ∧ cie.returnReg = 30 ∧ fde.location = funcAddr.toNat ∧
      fde.range = funcSize.toNat ∧ fde.ciePointer = (s₂.pos + 4 - (emitCie personalityAddr s₁).1) % 2^32 ∧
      ∀ pc ≥ 4, FrameLayout encoding (fde.row cie pc) := by
  have hlen : (frameBytes encoding).length < 2^16 := by
    have := length_regs encoding
    rw [length_frameBytes]
    omega
  obtain ⟨cie,fde,hcie,hfde,hreturn,hloc,hrange,hptr,hrow⟩ := read_back h₁ personalityAddr h₂ (frameCfi_eq encoding)
    (frameBytes_encodes encoding) hlen funcAddr funcSize lsdaAddr hB
  refine ⟨cie,fde,hcie,hfde,hreturn,hloc,hrange,hptr,fun pc hpc => ?_⟩
  rw [hrow pc]
  exact frameLayout_exec encoding hpc

/-- A frame with `x19`, `x20`, `d8` and `d9`, right after the CIE of a personality. -/
theorem savedPairs_layout :
    ∃ cie fde, readCie (entryAt
      (emitFdeFrame 0 0x100001000 64 0x44000101 0x100004000 (emitCie 0x7f0000001000 .empty).2).buf 0) = some cie ∧
      readFde (entryAt
        (emitFdeFrame 0 0x100001000 64 0x44000101 0x100004000 (emitCie 0x7f0000001000 .empty).2).buf 32) = some fde ∧
      ∀ pc ≥ 4, FrameLayout 0x44000101 (fde.row cie pc) := by
  obtain ⟨cie,fde,hcie,hfde,-,-,-,-,hrow⟩ := emitFdeFrame_layout .refl 0x7f0000001000 .refl 0x100001000 64 0x44000101
    0x100004000 (List.prefix_refl _)
  refine ⟨cie,fde,hcie,?_,hrow⟩
  rw [emitCie_eq] at hfde
  exact hfde

end Machismo.EhFrame
