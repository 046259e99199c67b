import Machismo.A64.Insn
import Mathlib.Tactic.Linarith
import Mathlib.Tactic.Positivity

/-! # Execution of the instruction fragment

`exec` gives the effect of one instruction on a core and the memory. Register 31 reads as zero
and discards writes in data positions, and is the stack pointer in base positions. A
store-exclusive succeeds only while the core's own monitor still marks the accessed span; the
flag `ok` leaves room for the spurious failures the architecture allows.
-/
namespace Machismo.A64

structure Flags where
  n : Bool
  z : Bool
  c : Bool
  v : Bool
  deriving DecidableEq, Repr

/-- The value `MRS` reads from `NZCV`: the flags in bits 31 to 28. -/
def Flags.toReg (f : Flags) : BitVec 64 :=
  (BitVec.ofBool f.n).setWidth 64 <<< 31 ||| (BitVec.ofBool f.z).setWidth 64 <<< 30 |||
    (BitVec.ofBool f.c).setWidth 64 <<< 29 ||| (BitVec.ofBool f.v).setWidth 64 <<< 28

def Flags.ofReg (x : BitVec 64) : Flags :=
  ⟨x.getLsbD 31, x.getLsbD 30, x.getLsbD 29, x.getLsbD 28⟩

@[simp] theorem Flags.ofReg_toReg (f : Flags) : Flags.ofReg f.toReg = f := by
  rcases f with ⟨n,z,c,v⟩
  cases n <;> cases z <;> cases c <;> cases v <;> decide

/-- The flags of the subtraction `a - b`: carry set means no borrow. -/
def subFlags {w : ℕ} (a b : BitVec w) : Flags where
  n := (a - b).msb
  z := a = b
  c := b.toNat ≤ a.toNat
  v := (a - b).toInt ≠ a.toInt - b.toInt

def condHolds (cond : BitVec 4) (f : Flags) : Bool :=
  let holds := match cond.extractLsb' 1 3 with
    | 0#3 => f.z
    | 1#3 => f.c
    | 2#3 => f.n
    | 3#3 => f.v
    | 4#3 => f.c && !f.z
    | 5#3 => f.n == f.v
    | 6#3 => f.n == f.v && !f.z
    | _ => true
  if cond.getLsbD 0 ∧ cond ≠ 0xF#4 then !holds else holds

theorem condHolds_ne {w : ℕ} (a b : BitVec w) : condHolds 0x1#4 (subFlags a b) = decide (a ≠ b) := by
  simp [condHolds, subFlags]

theorem condHolds_lo {w : ℕ} (a b : BitVec w) : condHolds 0x3#4 (subFlags a b) = a.ult b := by
  simp only [condHolds, subFlags, BitVec.ult]
  by_cases h : a.toNat < b.toNat
  · simp [h]
  · simp [h, Nat.not_lt.mp h]

theorem condHolds_hi {w : ℕ} (a b : BitVec w) : condHolds 0x8#4 (subFlags a b) = b.ult a := by
  simp only [condHolds, subFlags, BitVec.ult, BitVec.toNat_eq]
  by_cases h : a.toNat = b.toNat <;> simp [h]
  omega

theorem subFlags_n_beq_v {w : ℕ} (hw : 0 < w) (a b : BitVec w) :
    ((subFlags a b).n == (subFlags a b).v) = !a.slt b := by
  obtain ⟨k,rfl⟩ : ∃ k, w = k + 1 := ⟨w - 1, by omega⟩
  have ha := BitVec.toInt_lt (x := a)
  have ha' := BitVec.le_toInt (x := a)
  have hb := BitVec.toInt_lt (x := b)
  have hb' := BitVec.le_toInt (x := b)
  have hr := BitVec.toInt_lt (x := a - b)
  have hr' := BitVec.le_toInt (x := a - b)
  have hq := Int.bmod_add_bdiv (a.toInt - b.toInt) (2^(k+1))
  have hp : ((2^(k+1) : ℕ) : ℤ) = 2 * 2^k := by push_cast; ring
  have hP : (0 : ℤ) < 2^k := by positivity
  rw [← BitVec.toInt_sub, hp] at hq
  simp only [subFlags]
  rw [BitVec.msb_eq_toInt, BitVec.slt_eq_decide]
  simp only [Nat.add_sub_cancel] at ha ha' hb hb' hr hr'
  generalize (a.toInt - b.toInt).bdiv (2^(k+1)) = q at hq
  generalize (a - b).toInt = r at *
  generalize (2 : ℤ)^k = P at *
  have hq3 : q = -1 ∨ q = 0 ∨ q = 1 := by
    have h1 : q < 2 := by nlinarith
    have h2 : -2 < q := by nlinarith
    omega
  have key : (r < 0 ↔ r ≠ a.toInt - b.toInt) ↔ ¬ a.toInt < b.toInt := by
    rcases hq3 with rfl | rfl | rfl <;> omega
  rw [Bool.eq_iff_iff, beq_iff_eq, decide_eq_decide, key, Bool.not_eq_true', decide_eq_false_iff_not]

theorem condHolds_lt {w : ℕ} (hw : 0 < w) (a b : BitVec w) :
    condHolds 0xB#4 (subFlags a b) = a.slt b := by
  simp [condHolds, subFlags_n_beq_v hw]

theorem condHolds_gt {w : ℕ} (hw : 0 < w) (a b : BitVec w) :
    condHolds 0xC#4 (subFlags a b) = b.slt a := by
  have hz : (subFlags a b).z = decide (a.toInt = b.toInt) := by
    simp [subFlags, BitVec.toInt_inj]
  simp only [condHolds, BitVec.slt_eq_decide]
  simp only [subFlags_n_beq_v hw, hz, BitVec.slt_eq_decide]
  rw [Bool.eq_iff_iff]
  simp
  omega

/-- Architectural state of one core. The monitor is the span its last load-exclusive marked. -/
structure Core where
  x : Reg → BitVec 64
  sp : Addr
  flags : Flags
  v : Reg → BitVec 128
  pc : ℤ
  monitor : Option (Addr × ℕ)

namespace Core
variable (c : Core)

def read (r : Reg) : BitVec 64 := if r = 31#5 then 0#64 else c.x r
def base (r : Reg) : Addr := if r = 31#5 then c.sp else c.x r

def write (r : Reg) (a : BitVec 64) : Core :=
  if r = 31#5 then c else { c with x := Function.update c.x r a }

def setBase (r : Reg) (a : Addr) : Core :=
  if r = 31#5 then { c with sp := a } else { c with x := Function.update c.x r a }

def next : Core := { c with pc := c.pc + 1 }
def branch {k : ℕ} (imm : BitVec k) : Core := { c with pc := c.pc + imm.toInt }

end Core

def AluOp.eval {w : ℕ} (a b : BitVec w) : AluOp → BitVec w
  | .add => a + b
  | .bic => a &&& ~~~b
  | .eor => a ^^^ b
  | .orr => a ||| b

/-- The 32-bit forms work on the low halves and clear the upper half of the destination. -/
def atWidth (sf : Bool) (f : ∀ {w : ℕ}, BitVec w → BitVec w → BitVec w) (a b : BitVec 64) : BitVec 64 :=
  if sf then f a b else (f (a.setWidth 32) (b.setWidth 32)).setWidth 64

def flagsAtWidth (sf : Bool) (a b : BitVec 64) : Flags :=
  if sf then subFlags a b else subFlags (a.setWidth 32) (b.setWidth 32)

def Core.exclusive (c : Core) (ok : Bool) (a : Addr) (n : ℕ) : Bool := ok && c.monitor = some (a,n)

theorem Core.exclusive_iff {c : Core} {ok : Bool} {a : Addr} {n : ℕ} :
    c.exclusive ok a n = true ↔ ok = true ∧ c.monitor = some (a,n) := by
  simp [Core.exclusive]

section Exec
variable (ok : Bool) (c : Core) (m : Memory)

def exec : Insn → Core × Memory
  | .strPre rt rn imm =>
    let a := c.base rn + imm.signExtend 64
    ((c.setBase rn a).next, store m a 8 (c.read rt))
  | .ldrPost rt rn imm =>
    let a := c.base rn
    (((c.setBase rn (a + imm.signExtend 64)).write rt (load m a 8)).next, m)
  | .strQPre vt rn imm =>
    let a := c.base rn + imm.signExtend 64
    ((c.setBase rn a).next, store m a 16 (c.v vt))
  | .ldrQPost vt rn imm =>
    let a := c.base rn
    let c' := c.setBase rn (a + imm.signExtend 64)
    ({ c' with v := Function.update c'.v vt (load m a 16) }.next, m)
  | .mrsNzcv rt => ((c.write rt c.flags.toReg).next, m)
  | .msrNzcv rt => ({ c with flags := Flags.ofReg (c.read rt) }.next, m)
  | .clrex => ({ c with monitor := none }.next, m)
  | .ldxr size _ rt rn =>
    let a := c.base rn
    let n := bytes size
    ({ c.write rt ((load m a n).setWidth 64) with monitor := some (a,n) }.next, m)
  | .stxr size _ rs rt rn =>
    let a := c.base rn
    let n := bytes size
    if c.exclusive ok a n then
      ({ c.write rs 0#64 with monitor := none }.next, store m a n ((c.read rt).setWidth (8*n)))
    else ({ c.write rs 1#64 with monitor := none }.next, m)
  | .alu op sf rd rn rm =>
    ((c.write rd (atWidth sf (fun a b => op.eval a b) (c.read rn) (c.read rm))).next, m)
  | .subs sf rd rn rm =>
    let c' := c.write rd (atWidth sf (fun a b => a - b) (c.read rn) (c.read rm))
    ({ c' with flags := flagsAtWidth sf (c.read rn) (c.read rm) }.next, m)
  | .csel sf rd rn rm cond =>
    let a := if condHolds cond c.flags then c.read rn else c.read rm
    ((c.write rd (if sf then a else (a.setWidth 32).setWidth 64)).next, m)
  | .sxt imms rd rn =>
    let a := ((c.read rn).setWidth (imms.toNat + 1)).signExtend 32
    ((c.write rd (a.setWidth 64)).next, m)
  | .b imm => (c.branch imm, m)
  | .bcond cond imm => (if condHolds cond c.flags then c.branch imm else c.next, m)
  | .cbnz sf rt imm =>
    let zero := if sf then c.read rt = 0#64 else (c.read rt).setWidth 32 = 0#32
    (if zero then c.next else c.branch imm, m)
  | .vbic vd vn vm => ({ c with v := Function.update c.v vd (c.v vn &&& ~~~c.v vm) }.next, m)
  | .veor vd vn vm => ({ c with v := Function.update c.v vd (c.v vn ^^^ c.v vm) }.next, m)

/-- The span of memory an instruction overwrites, if it stores at all. -/
def storeSpan : Insn → Option (Addr × ℕ)
  | .strPre _ rn imm => some (c.base rn + imm.signExtend 64, 8)
  | .strQPre _ rn imm => some (c.base rn + imm.signExtend 64, 16)
  | .stxr size _ _ _ rn =>
    if c.exclusive ok (c.base rn) (bytes size) then some (c.base rn, bytes size) else none
  | _ => none

end Exec

end Machismo.A64
