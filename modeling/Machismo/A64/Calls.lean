import Machismo.A64.Insn
import Mathlib.Data.Set.Basic

/-! # Calls between functions

The instructions of a stack frame and of an indirect call, on a core that fetches from the memory
it stores to, so that a function may be code the program has written. The stack pointer must be a
multiple of 16 when it is the base of an access. None of the instructions reads or sets the
condition flags, which are left out. A function the code calls is known only by the procedure call
standard for the 64-bit architecture, and so is the list its variadic arguments are read from.
-/
namespace Machismo.A64

structure Cpu where
  x : Reg → BitVec 64
  v : Reg → BitVec 128
  sp : Addr
  pc : Addr
  mem : Memory

inductive FrameInsn where
  | stpPre (rt rt2 rn : Reg) (imm : BitVec 7)
  | ldpPost (rt rt2 rn : Reg) (imm : BitVec 7)
  | stpW (rt rt2 rn : Reg) (imm : BitVec 7)
  | addImm (rd rn : Reg) (imm : BitVec 12)
  | orr (rd rn rm : Reg)
  | strImm (rt rn : Reg) (imm : BitVec 12)
  | ldrLit (rt : Reg) (imm : BitVec 19)
  | blr (rn : Reg)
  | ret (rn : Reg)
  deriving DecidableEq, Repr

def decodePair (w : Word) (i : Reg → Reg → Reg → BitVec 7 → FrameInsn) : FrameInsn :=
  i (bits w 0 5) (bits w 10 5) (bits w 5 5) (bits w 15 7)

def decodeFrame (w : Word) : Option FrameInsn :=
  if bits w 22 10 = 0b1010100110#10 then some (decodePair w .stpPre)
  else if bits w 22 10 = 0b1010100011#10 then some (decodePair w .ldpPost)
  else if bits w 22 10 = 0b0010100100#10 then some (decodePair w .stpW)
  else if bits w 22 10 = 0b1001000100#10 then some (.addImm (bits w 0 5) (bits w 5 5) (bits w 10 12))
  else if bits w 21 11 = 0b10101010000#11 ∧ bits w 10 6 = 0#6 then
    some (.orr (bits w 0 5) (bits w 5 5) (bits w 16 5))
  else if bits w 22 10 = 0b1111100100#10 then some (.strImm (bits w 0 5) (bits w 5 5) (bits w 10 12))
  else if bits w 24 8 = 0x58#8 then some (.ldrLit (bits w 0 5) (bits w 5 19))
  else if bits w 10 22 = 0x358FC0#22 ∧ bits w 0 5 = 0#5 then some (.blr (bits w 5 5))
  else if bits w 10 22 = 0x3597C0#22 ∧ bits w 0 5 = 0#5 then some (.ret (bits w 5 5))
  else none

namespace Cpu
variable (s : Cpu)

def read (r : Reg) : BitVec 64 := if r = 31#5 then 0#64 else s.x r
def base (r : Reg) : Addr := if r = 31#5 then s.sp else s.x r

def write (r : Reg) (a : BitVec 64) : Cpu :=
  if r = 31#5 then s else { s with x := Function.update s.x r a }

def setBase (r : Reg) (a : Addr) : Cpu :=
  if r = 31#5 then { s with sp := a } else { s with x := Function.update s.x r a }

def setMem (m : Memory) : Cpu := { s with mem := m }
def next : Cpu := { s with pc := s.pc + 4 }

/-- The stack pointer is aligned if it is the base. -/
def Aligned (rn : Reg) : Prop := rn = 31#5 → s.sp.toNat % 16 = 0

instance (rn : Reg) : Decidable (s.Aligned rn) := inferInstanceAs (Decidable (_ → _))

theorem aligned_sp {s : Cpu} (h : s.sp.toNat % 16 = 0) (rn : Reg) : s.Aligned rn := fun _ => h

def exec : FrameInsn → Option Cpu
  | .stpPre rt rt2 rn imm =>
    if s.Aligned rn then
      let a := s.base rn + imm.signExtend 64 <<< 3
      some ((s.setMem (store (store s.mem a 8 (s.read rt)) (a + 8) 8 (s.read rt2))).setBase rn a).next
    else none
  | .ldpPost rt rt2 rn imm =>
    if s.Aligned rn then
      let a := s.base rn
      let s' := s.setBase rn (a + imm.signExtend 64 <<< 3)
      some ((s'.write rt (load s.mem a 8)).write rt2 (load s.mem (a + 8) 8)).next
    else none
  | .stpW rt rt2 rn imm =>
    if s.Aligned rn then
      let a := s.base rn + imm.signExtend 64 <<< 2
      some (s.setMem (store (store s.mem a 4 ((s.read rt).setWidth 32)) (a + 4) 4 ((s.read rt2).setWidth 32))).next
    else none
  | .addImm rd rn imm => some (s.setBase rd (s.base rn + imm.setWidth 64)).next
  | .orr rd rn rm => some (s.write rd (s.read rn ||| s.read rm)).next
  | .strImm rt rn imm =>
    if s.Aligned rn then
      some (s.setMem (store s.mem (s.base rn + imm.setWidth 64 <<< 3) 8 (s.read rt))).next
    else none
  | .ldrLit rt imm => some (s.write rt (load s.mem (s.pc + imm.signExtend 64 <<< 2) 8)).next
  | .blr rn => some { s.write 30#5 (s.pc + 4) with pc := s.read rn }
  | .ret rn => some { s with pc := s.read rn }

/-- One instruction, fetched from memory at a multiple of 4. -/
def step : Option Cpu :=
  if s.pc.toNat % 4 = 0 then (decodeFrame (load s.mem s.pc 4)).bind s.exec else none

def run : ℕ → Cpu → Option Cpu
  | 0, s => some s
  | n + 1, s => s.step.bind (run n)

end Cpu

theorem Apart.sub {a b : Addr} {n k i j n' k' : ℕ} (h : Apart a n b k) (hn : i + n' ≤ n) (hk : j + k' ≤ k)
    (hn0 : 0 < n') (hk0 : 0 < k') : Apart (a + BitVec.ofNat 64 i) n' (b + BitVec.ofNat 64 j) k' := by
  obtain ⟨h1,h2⟩ := h
  constructor
  all_goals
    simp only [BitVec.toNat_sub,BitVec.toNat_add,BitVec.toNat_ofNat] at *
    omega

theorem apart_add (t : Addr) {i n j k : ℕ} (h : i + n ≤ j) (hk : j + k ≤ 2^64) (hn0 : 0 < n) (hk0 : 0 < k) :
    Apart (t + BitVec.ofNat 64 i) n (t + BitVec.ofNat 64 j) k := by
  constructor
  all_goals
    simp only [BitVec.toNat_sub,BitVec.toNat_add,BitVec.toNat_ofNat]
    omega

theorem store_outside_span (m : Memory) {f b : Addr} {l : ℕ} (h : l ≤ (b - f).toNat) (c n : ℕ) (hc : c + n ≤ l)
    (v : BitVec (8*n)) : store m (f + BitVec.ofNat 64 c) n v b = m b := by
  apply store_outside
  simp only [BitVec.toNat_sub,BitVec.toNat_add,BitVec.toNat_ofNat] at *
  omega

def HasCode (m : Memory) (t : Addr) (is : List FrameInsn) : Prop :=
  ∀ k (h : k < is.length), decodeFrame (load m (t + BitVec.ofNat 64 (4*k)) 4) = some is[k]

theorem HasCode.congr {m m' : Memory} {t : Addr} {is : List FrameInsn} (h : HasCode m t is)
    (hm : ∀ i < 4*is.length, m' (t + BitVec.ofNat 64 i) = m (t + BitVec.ofNat 64 i)) : HasCode m' t is := by
  intro k hk
  rw [load_congr fun i hi => ?_]
  · exact h k hk
  · have he : t + BitVec.ofNat 64 (4*k) + BitVec.ofNat 64 i = t + BitVec.ofNat 64 (4*k + i) := by
      rw [BitVec.add_assoc,BitVec.ofNat_add]
    rw [he]
    exact hm _ (by omega)

theorem HasCode.store {m : Memory} {t a : Addr} {is : List FrameInsn} {l n : ℕ} (h : HasCode m t is)
    (hl : 4*is.length ≤ l) (ha : Apart t l a n) (v : BitVec (8*n)) : HasCode (A64.store m a n v) t is :=
  h.congr fun _ hi => store_outside m a n v (ha.toNat_sub (by omega))

theorem Cpu.run_code {s s' : Cpu} {t : Addr} {is : List FrameInsn} (hcode : HasCode s.mem t is)
    (ht : t.toNat % 4 = 0) (k : ℕ) (hk : k < is.length) (hpc : s.pc = t + BitVec.ofNat 64 (4*k))
    (he : s.exec is[k] = some s') (n : ℕ) : s.run (n + 1) = s'.run n := by
  have hal : s.pc.toNat % 4 = 0 := by
    rw [hpc,BitVec.toNat_add,BitVec.toNat_ofNat]
    omega
  rw [Cpu.run,Cpu.step,if_pos hal,hpc,hcode k hk,Option.bind_some,he,Option.bind_some]

/-- How a function that was entered in one state leaves another: it returns to the address in
`x30`, keeps the stack pointer, the callee-saved registers and the low halves of `v8` to `v15`, and
writes no byte its caller keeps for itself. -/
structure Conforms (kept : Set Addr) (entry ret : Cpu) : Prop where
  pc : ret.pc = entry.x 30#5
  sp : ret.sp = entry.sp
  x : ∀ r : Reg, 19 ≤ r.toNat → r.toNat ≤ 29 → ret.x r = entry.x r
  v : ∀ r : Reg, 8 ≤ r.toNat → r.toNat ≤ 15 → (ret.v r).setWidth 64 = (entry.v r).setWidth 64
  mem : ∀ a ∈ kept, ret.mem a = entry.mem a

/-! ## Variadic arguments

A `va_list` is a record of 32 bytes: the next argument on the stack, the ends of the two areas where
the callee saved its argument registers, and the negative offsets of the next arguments in these. -/

/-- The arguments of eight bytes: integers and pointers, or doubles. -/
inductive ArgKind where
  | integer | double
  deriving DecidableEq, Repr

namespace ArgKind

def top : ArgKind → Addr
  | integer => 8
  | double => 16

def offs : ArgKind → Addr
  | integer => 24
  | double => 28

def slot : ArgKind → BitVec 32
  | integer => 8
  | double => 16

end ArgKind

def vaArgStack (ap : Addr) (m : Memory) : BitVec 64 × Memory :=
  let arg : Addr := load m ap 8
  (load m arg 8,store m ap 8 ((arg + 8 + 7) &&& ~~~7#64))

def vaArg (ap : Addr) (k : ArgKind) (m : Memory) : BitVec 64 × Memory :=
  let offs : BitVec 32 := load m (ap + k.offs) 4
  if 0 ≤ offs.toInt then vaArgStack ap m
  else
    let m' := store m (ap + k.offs) 4 (offs + k.slot)
    if 0 < (offs + k.slot).toInt then vaArgStack ap m'
    else
      let top : Addr := load m' (ap + k.top) 8
      (load m' (top + offs.signExtend 64) 8,m')

def vaArgs (ap : Addr) : List ArgKind → Memory → List (BitVec 64)
  | [], _ => []
  | k :: ks, m => (vaArg ap k m).1 :: vaArgs ap ks (vaArg ap k m).2

/-- A list whose next argument is at `a`, with nothing left in registers. -/
structure VaOnStack (m : Memory) (ap a : Addr) : Prop where
  stack : load m ap 8 = a
  offs : ∀ k : ArgKind, 0 ≤ (load m (ap + k.offs) 4 : BitVec 32).toInt

section VaOnStack
variable {m : Memory} {ap a : Addr}

theorem VaOnStack.vaArg_eq (h : VaOnStack m ap a) (k : ArgKind) :
    vaArg ap k m = (load m a 8,store m ap 8 ((a + 8 + 7) &&& ~~~7#64)) := by
  unfold vaArg
  rw [if_pos (h.offs k),vaArgStack,h.stack]

theorem and_not_seven (b : BitVec 64) : b &&& ~~~7#64 = b >>> 3 <<< 3 := by
  have h : ~~~7#64 = BitVec.allOnes 64 <<< 3 := by decide
  rw [h]
  apply BitVec.eq_of_getLsbD_eq
  intro i hi
  simp only [BitVec.getLsbD_and,BitVec.getLsbD_shiftLeft,BitVec.getLsbD_allOnes,BitVec.getLsbD_ushiftRight]
  by_cases h3 : i < 3
  · simp [h3]
  · have h1 : i - 3 < 64 := by omega
    have h2 : 3 + (i - 3) = i := by omega
    simp [h3,hi,h1,h2]

theorem roundUp_aligned (ha : a.toNat % 8 = 0) : (a + 8 + 7) &&& ~~~7#64 = a + 8 := by
  rw [and_not_seven]
  apply BitVec.eq_of_toNat_eq
  simp only [BitVec.ofNat_eq_ofNat,BitVec.toNat_shiftLeft,BitVec.toNat_ushiftRight,BitVec.toNat_add,
    BitVec.toNat_ofNat,Nat.shiftLeft_eq,Nat.shiftRight_eq_div_pow]
  omega

theorem VaOnStack.next (h : VaOnStack m ap a) (ha : a.toNat % 8 = 0) (k : ArgKind) :
    VaOnStack (vaArg ap k m).2 ap (a + 8) := by
  rw [h.vaArg_eq,roundUp_aligned ha]
  refine ⟨load_store_same _ _ _ _ (by decide),fun k' => ?_⟩
  have hapart : Apart (ap + BitVec.ofNat 64 0) 8 (ap + k'.offs) 4 := by
    cases k' with
    | integer => exact apart_add ap (by decide : 0 + 8 ≤ 24) (by decide) (by decide) (by decide)
    | double => exact apart_add ap (by decide : 0 + 8 ≤ 28) (by decide) (by decide) (by decide)
  rw [BitVec.add_zero] at hapart
  rw [load_store_apart m _ hapart.symm]
  exact h.offs k'

theorem VaOnStack.vaArgs_eq (h : VaOnStack m ap a) (ha : a.toNat % 8 = 0) (ks : List ArgKind)
    (hapart : Apart a (8*ks.length) ap 8) :
    vaArgs ap ks m = (List.range ks.length).map fun i => load m (a + BitVec.ofNat 64 (8*i)) 8 := by
  induction ks generalizing m a with
  | nil => rfl
  | cons k ks ih =>
    have ha' : (a + 8).toNat % 8 = 0 := by
      simp only [BitVec.ofNat_eq_ofNat,BitVec.toNat_add,BitVec.toNat_ofNat]
      omega
    rw [vaArgs,List.length_cons,List.range_succ_eq_map,List.map_cons,List.map_map]
    congr 1
    · rw [h.vaArg_eq,Nat.mul_zero,BitVec.add_zero]
    · cases ks with
      | nil => rfl
      | cons k' ks =>
        have htail : Apart (a + 8) (8*(k' :: ks).length) ap 8 := by
          have hrest : Apart (a + BitVec.ofNat 64 8) (8*(k' :: ks).length) (ap + BitVec.ofNat 64 0) 8 :=
            hapart.sub (by simp only [List.length_cons]; omega) le_rfl (by simp) (by simp)
          rwa [BitVec.add_zero] at hrest
        rw [ih (h.next ha k) ha' htail]
        refine List.map_congr_left fun i hi => ?_
        have hi' := List.mem_range.mp hi
        have hsucc : a + BitVec.ofNat 64 (8*(i + 1)) = a + 8 + BitVec.ofNat 64 (8*i) := by
          rw [BitVec.add_assoc]
          congr 1
          rw [Nat.mul_succ,Nat.add_comm,BitVec.ofNat_add]
          rfl
        rw [Function.comp_apply,hsucc,h.vaArg_eq]
        have hone : Apart (a + 8 + BitVec.ofNat 64 (8*i)) 8 (ap + BitVec.ofNat 64 0) 8 :=
          htail.sub (by omega) le_rfl (by simp) (by simp)
        rw [BitVec.add_zero] at hone
        exact load_store_apart m _ hone

end VaOnStack

end Machismo.A64
