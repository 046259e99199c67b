import Machismo.RecoverSdl.Analyzer

/-! # Constants in the register file

Straight-line code that forms addresses, as the disassembler shows it and as the machine executes it: which
64-bit registers hold a constant after each instruction, and which of these are addresses of C strings.
-/
namespace Machismo.RecoverSdl
open Machismo.Resolver (Name)

inductive XReg where
  | x (n : Fin 31)
  | sp
  | xzr
  deriving DecidableEq, Fintype

/-- The disassembler's numbers for the registers and for their lower halves. -/
structure RegNames where
  name : XReg → ℕ
  half : XReg → ℕ
  distinct : Function.Injective (Sum.elim name half)

/-- The instructions that are followed. -/
inductive Listed where
  | adr (d : XReg) (target : BitVec 64)
  | adrp (d : XReg) (target : BitVec 64)
  | add (d n : XReg) (imm shift : ℕ)
  | mov (d n : XReg)
  | ldrLiteral (d : XReg) (location : BitVec 64)
  | ldr (d n : XReg) (disp : ℤ)
  deriving DecidableEq

namespace Listed

def destination : Listed → XReg
  | adr d _ => d
  | adrp d _ => d
  | add d _ _ _ => d
  | mov d _ => d
  | ldrLiteral d _ => d
  | ldr d _ _ => d

def source : Listed → Option XReg
  | adr _ _ => none
  | adrp _ _ => none
  | add _ n _ _ => some n
  | mov _ n => some n
  | ldrLiteral _ _ => none
  | ldr _ n _ => some n

def mnemonic : Listed → Name
  | adr _ _ => "adr".toList
  | adrp _ _ => "adrp".toList
  | add _ _ _ _ => "add".toList
  | mov _ _ => "mov".toList
  | ldrLiteral _ _ => "ldr".toList
  | ldr _ _ _ => "ldr".toList

def operands (N : RegNames) : Listed → List Operand
  | adr d target => [.reg (N.name d),.imm target.toNat 0]
  | adrp d target => [.reg (N.name d),.imm target.toNat 0]
  | add d n imm shift => [.reg (N.name d),.reg (N.name n),.imm imm shift]
  | mov d n => [.reg (N.name d),.reg (N.name n)]
  | ldrLiteral d location => [.reg (N.name d),.imm location.toNat 0]
  | ldr d n disp => [.reg (N.name d),.mem (N.name n) none disp]

end Listed

/-- Any other instruction; what it overwrites is its first operand. -/
structure Unlisted (N : RegNames) where
  mnemonic : Name
  operands : List Operand
  unlisted : ∀ l : Listed, ¬(l.mnemonic = mnemonic ∧ l.operands N = operands)

inductive Instruction (N : RegNames) where
  | listed (l : Listed)
  | unlisted (u : Unlisted N)

variable {N : RegNames}

/-- What the disassembler shows. -/
def Instruction.decode (address : ℕ) : Instruction N → Insn
  | .listed l => ⟨address,4,l.mnemonic,l.operands N⟩
  | .unlisted u => ⟨address,4,u.mnemonic,u.operands⟩

def decodeAll (address : ℕ) : List (Instruction N) → List Insn
  | [] => []
  | op :: ops => op.decode address :: decodeAll (address+4) ops

/-- The register that an unlisted instruction overwrites or of which it overwrites a half. -/
def Unlisted.overwrites (u : Unlisted N) (r : XReg) : Prop :=
  ∃ k, (u.operands[0]?.bind Operand.reg?) = some k ∧ (k = N.name r ∨ k = N.half r)

instance (u : Unlisted N) (r : XReg) : Decidable (u.overwrites r) :=
  match h : u.operands[0]?.bind Operand.reg? with
  | none => isFalse fun ⟨_,hk,_⟩ => nomatch h.symm.trans hk
  | some k => decidable_of_iff (k = N.name r ∨ k = N.half r)
      ⟨fun hor => ⟨k,h,hor⟩,fun ⟨_,hk,hor⟩ => Option.some.inj (h.symm.trans hk) ▸ hor⟩

namespace MachO
variable (X : MachO)

abbrev Consts := XReg → Option (BitVec 64)

def Consts.read (c : Consts) : XReg → Option (BitVec 64)
  | .xzr => some 0
  | r => c r

/-- The pointer that the file has at an address. -/
def load (location : BitVec 64) : Option (BitVec 64) := (X.pointerAt location.toNat).map (BitVec.ofNat 64)

/-- The constant that an instruction leaves in its destination. -/
def result (c : Consts) : Listed → Option (BitVec 64)
  | .adr _ target => some target
  | .adrp _ target => some target
  | .add _ n imm shift => (c.read n).map (· + BitVec.ofNat 64 (imm*2^shift))
  | .mov _ n => c.read n
  | .ldrLiteral _ location => X.load location
  | .ldr _ n disp => (c.read n).bind fun base => X.load (base + BitVec.ofInt 64 disp)

/-- What goes into a register of the file: `xzr` is not one. -/
def written (c : Consts) (l : Listed) : Option (BitVec 64) := if l.destination = .xzr then none else X.result c l

def execute (c : Consts) : Instruction N → Consts
  | .listed l => if l.destination = .xzr then c else Function.update c l.destination (X.result c l)
  | .unlisted u => fun r => if u.overwrites r then none else c r

def reports (site : ℕ) (value : Option ℤ) : List (ℕ × ℤ) :=
  match value with
  | none => []
  | some v => if (X.stringForAddress v).isSome then [(site,v)] else []

/-- The instructions that make a register hold the address of a C string, with that. -/
def stringConstants (site : ℕ) (c : Consts) : List (Instruction N) → List (ℕ × ℤ)
  | [] => []
  | .listed l :: ops =>
    X.reports site ((X.written c l).map fun v => (v.toNat : ℤ)) ++
      stringConstants (site+4) (X.execute c (.listed l : Instruction N)) ops
  | .unlisted u :: ops => stringConstants (site+4) (X.execute c (.unlisted u)) ops

/-- What the tool reports of straight-line code are these. -/
def ReportsConstants (site : ℕ) (ops : List (Instruction N)) : Prop :=
  (X.stringReferences (decodeAll site ops)).map (fun r => (r.instruction,r.address)) =
    X.stringConstants site (fun _ => none) ops

end MachO

end Machismo.RecoverSdl
