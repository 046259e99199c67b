import Machismo.A64.Run
import Machismo.IsaEmul.Island

/-! # The instructions of an island, one at a time

Inside an island a core differs from its entry state only in the general registers, the flags, the
number of 16-byte slots pushed below the entry stack pointer, the program counter and the
monitor. `inIsland` is that shape; each lemma below says how one emitted instruction changes it.
-/
namespace Machismo.IsaEmul
open A64

/-- The stack pointer after `k` pushes, which is also the address of the `k`-th saved register. -/
def slot (sp : Addr) (k : ℕ) : Addr := sp - BitVec.ofNat 64 (16*k)

@[simp] theorem slot_zero (sp : Addr) : slot sp 0 = sp := by simp [slot]

theorem slot_push (sp : Addr) (k : ℕ) : slot sp k + (0x1F0#9).signExtend 64 = slot sp (k+1) := by
  have h : (0x1F0#9).signExtend 64 = -16#64 := by decide
  have h2 : BitVec.ofNat 64 (16*(k+1)) = BitVec.ofNat 64 (16*k) + 16#64 := by
    rw [Nat.mul_succ, BitVec.ofNat_add]
  rw [slot, slot, h, h2]
  simp only [BitVec.sub_eq_add_neg, BitVec.neg_add]
  ac_rfl

theorem slot_pop (sp : Addr) (k : ℕ) : slot sp (k+1) + (0x010#9).signExtend 64 = slot sp k := by
  have h : (0x010#9).signExtend 64 = -(0x1F0#9).signExtend 64 := by decide
  rw [← slot_push, h, BitVec.add_assoc, ← BitVec.sub_eq_add_neg, BitVec.sub_self, BitVec.add_zero]

abbrev RegFile := Reg → BitVec 64
abbrev Monitor := Option (Addr × ℕ)

/-- A data operand: register 31 is zero. -/
def operand (ρ : RegFile) (r : Reg) : BitVec 64 := if r = 31#5 then 0#64 else ρ r

theorem operand_of_ne (ρ : RegFile) {r : Reg} (h : r ≠ 31#5) : operand ρ r = ρ r := if_neg h

theorem operand_update_self (ρ : RegFile) {r : Reg} (h : r ≠ 31#5) (a : BitVec 64) :
    operand (Function.update ρ r a) r = a := by
  rw [operand_of_ne _ h, Function.update_self]

theorem operand_update_of_ne (ρ : RegFile) {q r : Reg} (h : r ≠ q) (a : BitVec 64) :
    operand (Function.update ρ q a) r = operand ρ r := by
  unfold operand
  rw [Function.update_of_ne h]

/-- A base address: register 31 is the stack pointer. -/
def baseOf (e : Core) (ρ : RegFile) (k : ℕ) (r : Reg) : Addr := if r = 31#5 then slot e.sp k else ρ r

def inIsland (e : Core) (ρ : RegFile) (f : Flags) (k : ℕ) (pc : ℤ) (mon : Monitor) : Core :=
  ⟨ρ, slot e.sp k, f, e.v, pc, mon⟩

section Steps
variable (e : Core) (ρ : RegFile) (f : Flags) (k : ℕ) (pc : ℤ) (mon : Monitor)
variable (ok : Bool) (m : Memory)

theorem inIsland_entry : inIsland e e.x e.flags 0 e.pc e.monitor = e := by
  simp [inIsland]

@[simp] theorem inIsland_pc : (inIsland e ρ f k pc mon).pc = pc := rfl

@[simp] theorem inIsland_read (r : Reg) : (inIsland e ρ f k pc mon).read r = operand ρ r := rfl

@[simp] theorem inIsland_base (r : Reg) : (inIsland e ρ f k pc mon).base r = baseOf e ρ k r := rfl

theorem exec_push {r : Reg} (hr : r ≠ 31#5) : exec ok (inIsland e ρ f k pc mon) m (push r) =
    (inIsland e ρ f (k+1) (pc+1) mon, store m (slot e.sp (k+1)) 8 (ρ r)) := by
  simp only [push, exec, inIsland, Core.base, Core.setBase, Core.read, Core.next, hr, ↓reduceIte, slot_push]

theorem exec_pop {r : Reg} (hr : r ≠ 31#5) : exec ok (inIsland e ρ f (k+1) pc mon) m (pop r) =
    (inIsland e (Function.update ρ r (load m (slot e.sp (k+1)) 8)) f k (pc+1) mon, m) := by
  simp only [pop, exec, inIsland, Core.base, Core.setBase, Core.write, Core.next, hr, ↓reduceIte, slot_pop]

theorem exec_mrs {r : Reg} (hr : r ≠ 31#5) : exec ok (inIsland e ρ f k pc mon) m (.mrsNzcv r) =
    (inIsland e (Function.update ρ r f.toReg) f k (pc+1) mon, m) := by
  simp [exec, inIsland, Core.write, Core.next, hr]

theorem exec_msr {r : Reg} (hr : r ≠ 31#5) : exec ok (inIsland e ρ f k pc mon) m (.msrNzcv r) =
    (inIsland e ρ (Flags.ofReg (ρ r)) k (pc+1) mon, m) := by
  simp [exec, inIsland, Core.read, Core.next, hr]

theorem exec_clrex : exec ok (inIsland e ρ f k pc mon) m .clrex =
    (inIsland e ρ f k (pc+1) none, m) := rfl

theorem exec_ldxr (size : BitVec 2) (acq : Bool) {rt : Reg} (rn : Reg) (hr : rt ≠ 31#5) :
    exec ok (inIsland e ρ f k pc mon) m (.ldxr size acq rt rn) =
      (inIsland e (Function.update ρ rt ((load m (baseOf e ρ k rn) (bytes size)).setWidth 64)) f k (pc+1)
        (some (baseOf e ρ k rn, bytes size)), m) := by
  simp [exec, inIsland, Core.base, Core.write, Core.next, hr, baseOf]

theorem exec_stxr (size : BitVec 2) (rel : Bool) {rs : Reg} (rt rn : Reg) (hr : rs ≠ 31#5) :
    exec ok (inIsland e ρ f k pc mon) m (.stxr size rel rs rt rn) =
      if ok ∧ mon = some (baseOf e ρ k rn, bytes size) then
        (inIsland e (Function.update ρ rs 0#64) f k (pc+1) none,
          store m (baseOf e ρ k rn) (bytes size) ((operand ρ rt).setWidth (8*bytes size)))
      else (inIsland e (Function.update ρ rs 1#64) f k (pc+1) none, m) := by
  have hx : (inIsland e ρ f k pc mon).exclusive ok (baseOf e ρ k rn) (bytes size) = true ↔
      ok = true ∧ mon = some (baseOf e ρ k rn, bytes size) := Core.exclusive_iff
  simp only [exec, inIsland_base, inIsland_read, hx]
  split
  · simp only [inIsland, Core.write, Core.next, hr, ↓reduceIte]
  · simp only [inIsland, Core.write, Core.next, hr, ↓reduceIte]

theorem exec_bcond (cond : BitVec 4) (imm : BitVec 19) :
    exec ok (inIsland e ρ f k pc mon) m (.bcond cond imm) =
      (inIsland e ρ f k (if condHolds cond f then pc + imm.toInt else pc + 1) mon, m) := by
  by_cases h : condHolds cond f <;> simp [exec, inIsland, Core.next, Core.branch, h]

theorem exec_cbnz (rt : Reg) (imm : BitVec 19) :
    exec ok (inIsland e ρ f k pc mon) m (.cbnz false rt imm) =
      (inIsland e ρ f k (if (operand ρ rt).setWidth 32 = 0#32 then pc + 1 else pc + imm.toInt) mon, m) := by
  by_cases h : (operand ρ rt).setWidth 32 = 0#32 <;>
    simp only [exec, inIsland_read, h, Bool.false_eq_true, ↓reduceIte] <;>
    simp [inIsland, Core.next, Core.branch]

theorem exec_b (imm : BitVec 26) : exec ok (inIsland e ρ f k pc mon) m (.b imm) =
    (inIsland e ρ f k (pc + imm.toInt) mon, m) := rfl

theorem advance_push (n : ℕ) (tr : List Access) {r : Reg} (hr : r ≠ 31#5) :
    advance ⟨inIsland e ρ f k pc mon,m,n,tr⟩ (push r) =
      ⟨inIsland e ρ f (k+1) (pc+1) mon,store m (slot e.sp (k+1)) 8 (ρ r),n,tr⟩ := by
  simp only [advance, exec_push _ _ _ _ _ _ _ _ hr]
  simp [push, accesses, Insn.isStxr]

theorem advance_pop (n : ℕ) (tr : List Access) {r : Reg} (hr : r ≠ 31#5) :
    advance ⟨inIsland e ρ f (k+1) pc mon,m,n,tr⟩ (pop r) =
      ⟨inIsland e (Function.update ρ r (load m (slot e.sp (k+1)) 8)) f k (pc+1) mon,m,n,tr⟩ := by
  simp only [advance, exec_pop _ _ _ _ _ _ _ _ hr]
  simp [pop, accesses, Insn.isStxr]

theorem advance_mrs (n : ℕ) (tr : List Access) {r : Reg} (hr : r ≠ 31#5) :
    advance ⟨inIsland e ρ f k pc mon,m,n,tr⟩ (.mrsNzcv r) =
      ⟨inIsland e (Function.update ρ r f.toReg) f k (pc+1) mon,m,n,tr⟩ := by
  simp only [advance, exec_mrs _ _ _ _ _ _ _ _ hr]
  simp [accesses, Insn.isStxr]

theorem advance_msr (n : ℕ) (tr : List Access) {r : Reg} (hr : r ≠ 31#5) :
    advance ⟨inIsland e ρ f k pc mon,m,n,tr⟩ (.msrNzcv r) =
      ⟨inIsland e ρ (Flags.ofReg (ρ r)) k (pc+1) mon,m,n,tr⟩ := by
  simp only [advance, exec_msr _ _ _ _ _ _ _ _ hr]
  simp [accesses, Insn.isStxr]

theorem advance_ldxr (n : ℕ) (tr : List Access) (size : BitVec 2) (acq : Bool) {rt : Reg} (rn : Reg)
    (hr : rt ≠ 31#5) :
    advance ⟨inIsland e ρ f k pc mon,m,n,tr⟩ (.ldxr size acq rt rn) =
      ⟨inIsland e (Function.update ρ rt ((load m (baseOf e ρ k rn) (bytes size)).setWidth 64)) f k (pc+1)
        (some (baseOf e ρ k rn, bytes size)),m,n,tr ++ [.load (baseOf e ρ k rn) (bytes size)]⟩ := by
  simp only [advance, exec_ldxr _ _ _ _ _ _ _ _ _ _ _ hr, accesses, inIsland_base]
  rfl

theorem advance_stxr (n : ℕ) (tr : List Access) (size : BitVec 2) (rel : Bool) {rs : Reg} (rt rn : Reg)
    (hr : rs ≠ 31#5) :
    advance ⟨inIsland e ρ f k pc (some (baseOf e ρ k rn, bytes size)),m,n,tr⟩ (.stxr size rel rs rt rn) =
      ⟨inIsland e (Function.update ρ rs (if n = 0 then 0#64 else 1#64)) f k (pc+1) none,
        if n = 0 then store m (baseOf e ρ k rn) (bytes size) ((operand ρ rt).setWidth (8*bytes size)) else m,
        n - 1,tr ++ [.store (baseOf e ρ k rn) (bytes size) (n = 0)]⟩ := by
  have hx : (inIsland e ρ f k pc (some (baseOf e ρ k rn, bytes size))).exclusive (decide (n = 0))
      (baseOf e ρ k rn) (bytes size) = decide (n = 0) := by
    rw [Bool.eq_iff_iff, Core.exclusive_iff]
    simp [inIsland]
  simp only [advance, exec_stxr _ _ _ _ _ _ _ _ _ _ _ _ hr, accesses, inIsland_base, hx]
  by_cases h0 : n = 0 <;> simp [h0, Insn.isStxr]

theorem advance_bcond (n : ℕ) (tr : List Access) (cond : BitVec 4) (imm : BitVec 19) :
    advance ⟨inIsland e ρ f k pc mon,m,n,tr⟩ (.bcond cond imm) =
      ⟨inIsland e ρ f k (if condHolds cond f then pc + imm.toInt else pc + 1) mon,m,n,tr⟩ := by
  simp only [advance, exec_bcond]
  simp [accesses, Insn.isStxr]

theorem advance_cbnz (n : ℕ) (tr : List Access) (rt : Reg) (imm : BitVec 19) :
    advance ⟨inIsland e ρ f k pc mon,m,n,tr⟩ (.cbnz false rt imm) =
      ⟨inIsland e ρ f k (if (operand ρ rt).setWidth 32 = 0#32 then pc + 1 else pc + imm.toInt) mon,m,n,tr⟩ := by
  simp only [advance, exec_cbnz]
  simp [accesses, Insn.isStxr]

theorem advance_b (n : ℕ) (tr : List Access) (imm : BitVec 26) :
    advance ⟨inIsland e ρ f k pc mon,m,n,tr⟩ (.b imm) = ⟨inIsland e ρ f k (pc + imm.toInt) mon,m,n,tr⟩ := by
  simp only [advance, exec_b]
  simp [accesses, Insn.isStxr]

end Steps

def setReg (ρ : RegFile) (r : Reg) (a : BitVec 64) : RegFile := if r = 31#5 then ρ else Function.update ρ r a

def sxtValue (imms : BitVec 6) (a : BitVec 64) : BitVec 64 :=
  ((a.setWidth (imms.toNat+1)).signExtend 32).setWidth 64

def cselValue (sf taken : Bool) (r a : BitVec 64) : BitVec 64 :=
  let v := if taken then r else a
  if sf then v else (v.setWidth 32).setWidth 64

/-- Instructions that only read and write general registers and flags. -/
def isPure : Insn → Bool
  | .alu .. | .subs .. | .csel .. | .sxt .. => true
  | _ => false

def pureStep (s : RegFile × Flags) : Insn → RegFile × Flags
  | .alu op sf rd rn rm =>
    (setReg s.1 rd (atWidth sf (fun a b => op.eval a b) (operand s.1 rn) (operand s.1 rm)), s.2)
  | .subs sf rd rn rm =>
    (setReg s.1 rd (atWidth sf (fun a b => a - b) (operand s.1 rn) (operand s.1 rm)),
      flagsAtWidth sf (operand s.1 rn) (operand s.1 rm))
  | .csel sf rd rn rm cond =>
    (setReg s.1 rd (cselValue sf (condHolds cond s.2) (operand s.1 rn) (operand s.1 rm)), s.2)
  | .sxt imms rd rn => (setReg s.1 rd (sxtValue imms (operand s.1 rn)), s.2)
  | _ => s

theorem write_inIsland (e : Core) (ρ : RegFile) (f : Flags) (k : ℕ) (pc : ℤ) (mon : Monitor) (r : Reg)
    (a : BitVec 64) : (inIsland e ρ f k pc mon).write r a = inIsland e (setReg ρ r a) f k pc mon := by
  unfold Core.write setReg
  split <;> rfl

theorem write_next_inIsland (e : Core) {r : Reg} (hr : r ≠ 31#5) (ρ : RegFile) (f : Flags) (k : ℕ) {pc pc' : ℤ}
    (hpc : pc + 1 = pc') (mon : Monitor) (a : BitVec 64) :
    ((inIsland e ρ f k pc mon).write r a).next = inIsland e (Function.update ρ r a) f k pc' mon := by
  rw [write_inIsland, setReg, if_neg hr]
  simp only [inIsland, Core.next, hpc]

theorem exec_pure (e : Core) (s : RegFile × Flags) (k : ℕ) (pc : ℤ) (mon : Monitor) (ok : Bool) (m : Memory)
    {i : Insn} (hi : isPure i) :
    exec ok (inIsland e s.1 s.2 k pc mon) m i =
      (inIsland e (pureStep s i).1 (pureStep s i).2 k (pc+1) mon, m) := by
  cases i <;> simp [isPure] at hi <;> simp only [exec, inIsland_read, write_inIsland, pureStep] <;> rfl

theorem foldl_advance_pure (e : Core) (k : ℕ) (mon : Monitor) (m : Memory) (n : ℕ) (tr : List Access)
    (is : List Insn) (hi : ∀ i ∈ is, isPure i) (s : RegFile × Flags) (pc : ℤ) :
    is.foldl advance ⟨inIsland e s.1 s.2 k pc mon,m,n,tr⟩ =
      ⟨inIsland e (is.foldl pureStep s).1 (is.foldl pureStep s).2 k (pc + is.length) mon,m,n,tr⟩ := by
  induction is generalizing s pc with
  | nil => simp
  | cons i is ih =>
    have hp := hi i (by simp)
    have hstep : advance ⟨inIsland e s.1 s.2 k pc mon,m,n,tr⟩ i =
        ⟨inIsland e (pureStep s i).1 (pureStep s i).2 k (pc+1) mon,m,n,tr⟩ := by
      simp only [advance, exec_pure e s k pc mon _ m hp]
      cases i <;> simp [isPure] at hp <;> simp [accesses, Insn.isStxr]
    simp only [List.foldl_cons, hstep]
    rw [ih (fun j hj => hi j (by simp [hj]))]
    simp only [List.length_cons]
    push_cast
    rw [add_assoc, add_comm (1 : ℤ)]

theorem isPure_moveResult (d : LseDecoded) (dest src : Reg) : ∀ i ∈ moveResult d dest src, isPure i := by
  unfold moveResult
  split <;> simp [movInsn, isPure]

theorem moveResult_run (d : LseDecoded) (dest src : Reg) (e : Core) (ρ : RegFile) (f : Flags) (k : ℕ)
    (pc : ℤ) (mon : Monitor) (m : Memory) (n : ℕ) (tr : List Access) :
    (moveResult d dest src).foldl advance ⟨inIsland e ρ f k pc mon,m,n,tr⟩ =
      ⟨inIsland e (setReg ρ dest (atWidth d.isX (fun a b => AluOp.orr.eval a b) 0#64 (operand ρ src))) f k
        (pc + (moveResult d dest src).length) mon,m,n,tr⟩ := by
  rw [foldl_advance_pure e k mon m n tr _ (isPure_moveResult d dest src) (ρ,f)]
  unfold moveResult
  split
  next hd => simp [movInsn, pureStep, operand]
  next hd => simp [setReg, not_not.mp hd]

theorem bytes_le_four {size : BitVec 2} (h : size ≠ 3#2) : bytes size ≤ 4 := by
  revert size; decide

theorem bytes_le_eight (size : BitVec 2) : bytes size ≤ 8 := by
  revert size; decide

theorem move_zeroExtend (d : LseDecoded) (v : BitVec (8*bytes d.size)) :
    atWidth d.isX (fun a b => AluOp.orr.eval a b) 0#64 (v.setWidth 64) = v.setWidth 64 := by
  unfold atWidth LseDecoded.isX
  by_cases h : d.size = 3#2
  · simp [h, AluOp.eval]
  · have h4 := bytes_le_four h
    simp only [h, decide_false, Bool.false_eq_true, ↓reduceIte, AluOp.eval]
    apply BitVec.eq_of_toNat_eq
    have hv := v.isLt
    have : 2^(8*bytes d.size) ≤ 2^32 := Nat.pow_le_pow_right (by omega) (by omega)
    simp only [BitVec.setWidth_zero, BitVec.zero_or, BitVec.toNat_setWidth]
    omega

/-- The register file agrees with another outside a set of registers. -/
def AgreeOff (S : List Reg) (ρ ρ' : RegFile) : Prop := ∀ r, r ∉ S → ρ r = ρ' r

theorem AgreeOff.refl (S : List Reg) (ρ : RegFile) : AgreeOff S ρ ρ := fun _ _ => rfl

theorem AgreeOff.update {S : List Reg} {ρ ρ' : RegFile} (h : AgreeOff S ρ ρ') {r : Reg} (hr : r ∈ S)
    (a : BitVec 64) : AgreeOff S (Function.update ρ r a) ρ' := by
  intro q hq
  have hne : q ≠ r := by rintro rfl; exact hq hr
  rw [Function.update_of_ne hne]
  exact h q hq

theorem AgreeOff.setReg {S : List Reg} {ρ ρ' : RegFile} (h : AgreeOff S ρ ρ') (r : Reg) (a : BitVec 64) :
    AgreeOff S (setReg ρ r a) (setReg ρ' r a) := by
  intro q hq
  unfold IsaEmul.setReg
  split
  · exact h q hq
  · by_cases hqr : q = r
    · rw [hqr, Function.update_self, Function.update_self]
    · rw [Function.update_of_ne hqr, Function.update_of_ne hqr, h q hq]

theorem AgreeOff.operand {S : List Reg} {ρ ρ' : RegFile} (h : AgreeOff S ρ ρ') {r : Reg} (hr : r ∉ S) :
    operand ρ r = operand ρ' r := by
  unfold IsaEmul.operand
  rw [h r hr]

/-- What an island relies on of its scratch registers. -/
structure Scratch (d : LseDecoded) (l : List Reg) : Prop where
  nodup : l.Nodup
  xzr : 31#5 ∉ l
  rs : d.rs ∉ l
  rt : d.rt ∉ l
  rn : d.rn ∉ l

section Scratch
variable {d : LseDecoded} {s1 s2 s3 : Reg} {l : List Reg}

theorem Scratch.s1_ne_xzr (h : Scratch d (s1 :: l)) : s1 ≠ 31#5 := fun he => h.xzr (by simp [he])

theorem Scratch.s2_ne_xzr (h : Scratch d (s1 :: s2 :: l)) : s2 ≠ 31#5 := fun he => h.xzr (by simp [he])

theorem Scratch.s3_ne_xzr (h : Scratch d (s1 :: s2 :: s3 :: l)) : s3 ≠ 31#5 :=
  fun he => h.xzr (by simp [he])

theorem Scratch.s1_ne_s2 (h : Scratch d (s1 :: s2 :: l)) : s1 ≠ s2 :=
  fun he => (List.nodup_cons.mp h.nodup).1 (by simp [he])

theorem Scratch.s1_ne_s3 (h : Scratch d (s1 :: s2 :: s3 :: l)) : s1 ≠ s3 :=
  fun he => (List.nodup_cons.mp h.nodup).1 (by simp [he])

theorem Scratch.s2_ne_s3 (h : Scratch d (s1 :: s2 :: s3 :: l)) : s2 ≠ s3 :=
  fun he => (List.nodup_cons.mp (List.nodup_cons.mp h.nodup).2).1 (by simp [he])

end Scratch

/-- The registers `p` have been picked, last one first, clear of the registers `l`. -/
structure Picked (mask : Word) (p l : List Reg) : Prop where
  excludes : Excludes mask (p ++ l)
  nodup : p.Nodup
  clear : ∀ q ∈ l, q ∉ p

theorem Picked.start {mask : Word} {l : List Reg} (h : Excludes mask l) : Picked mask [] l :=
  ⟨h,List.nodup_nil,fun _ _ => List.not_mem_nil⟩

theorem Picked.pick {mask : Word} {p l : List Reg} (h : Picked mask p l) (hlen : (p ++ l).length < 8) :
    Picked (mask ||| regBit (pickScratch mask)) (pickScratch mask :: p) l := by
  have hp := (pickScratch_spec h.excludes hlen).1
  rw [List.mem_append, not_or] at hp
  refine ⟨h.excludes.or _,List.nodup_cons.mpr ⟨hp.1,h.nodup⟩,?_⟩
  intro q hq hm
  rcases List.mem_cons.mp hm with rfl | hm
  · exact hp.2 hq
  · exact h.clear q hq hm

theorem Picked.scratch {mask : Word} {p l : List Reg} {d : LseDecoded} (h : Picked mask p l) (hx : 31#5 ∈ l)
    (hrs : d.rs ∈ l) (hrt : d.rt ∈ l) (hrn : d.rn ∈ l) : Scratch d p.reverse := by
  have hc : ∀ q ∈ l, q ∉ p.reverse := fun q hq => List.mem_reverse.not.mpr (h.clear q hq)
  exact ⟨List.nodup_reverse.mpr h.nodup,hc _ hx,hc _ hrs,hc _ hrt,hc _ hrn⟩

/-- The accesses of a loop that fails `n` times before it succeeds. -/
def loopTrace (a : Addr) (k n : ℕ) : List Access :=
  (List.replicate n [Access.load a k, .store a k false]).flatten ++ [.load a k, .store a k true]

/-- The registers an island ends with: the destination holds the result, the registers in `saved` hold
what their slots hold. -/
structure Restored (saved : List Reg) (e : Core) (ρ : RegFile) (M : Memory) (dest : Reg) (old : BitVec 64) :
    Prop where
  regs : AgreeOff saved ρ (setReg e.x dest old)
  slots : ∀ k (hk : k < saved.length), ρ (saved.get ⟨k,hk⟩) = load M (slot e.sp (k+1)) 8

/-- The state an island ends in; the flags are what the last slot holds. -/
structure IslandEnd (saved : List Reg) (e : Core) (t : State) (M : Memory) (dest : Reg) (old : BitVec 64) :
    Prop where
  mem : t.mem = M
  restored : Restored saved e t.core.x M dest old
  flags : t.core.flags = Flags.ofReg (load M (slot e.sp (saved.length+1)) 8)
  sp : t.core.sp = e.sp
  v : t.core.v = e.v

theorem straight_moveResult (d : LseDecoded) (dest src : Reg) : ∀ i ∈ moveResult d dest src, i.straight := by
  unfold moveResult
  split <;> simp [movInsn, Insn.straight]

end Machismo.IsaEmul
