import Machismo.A64.Exec

/-! # The ARMv8.1 atomic memory instructions and BCAX

What the architecture says the single instructions do: one read-modify-write of a cell of 1, 2, 4
or 8 bytes, and the bit-clear-and-exclusive-or of the SHA3 extension. These are the
specifications an emulating sequence is compared with.
-/
namespace Machismo.A64

inductive RmwOp where
  | ldadd | ldclr | ldeor | ldset | ldsmax | ldsmin | ldumax | ldumin | swp
  deriving DecidableEq, Repr

/-- The value written, from the cell and the operand at the access width. -/
def RmwOp.apply {w : ℕ} (old src : BitVec w) : RmwOp → BitVec w
  | .ldadd => old + src
  | .ldclr => old &&& ~~~src
  | .ldeor => old ^^^ src
  | .ldset => old ||| src
  | .ldsmax => if old.slt src then src else old
  | .ldsmin => if src.slt old then src else old
  | .ldumax => if old.ult src then src else old
  | .ldumin => if src.ult old then src else old
  | .swp => src

inductive Atomic where
  | rmw (op : RmwOp) (size : BitVec 2) (acquire release : Bool) (rs rt rn : Reg)
  | cas (size : BitVec 2) (acquire release : Bool) (rs rt rn : Reg)
  deriving DecidableEq, Repr

/-- The operation selected by `o3` and `opc`; the rest of the space belongs to other extensions. -/
def rmwOp (o3 : BitVec 1) (opc : BitVec 3) : Option RmwOp :=
  if o3 = 1#1 then if opc = 0#3 then some .swp else none
  else match opc with
    | 0#3 => some .ldadd
    | 1#3 => some .ldclr
    | 2#3 => some .ldeor
    | 3#3 => some .ldset
    | 4#3 => some .ldsmax
    | 5#3 => some .ldsmin
    | 6#3 => some .ldumax
    | _ => some .ldumin

def decodeAtomic (w : Word) : Option Atomic :=
  if bits w 24 6 = 0b111000#6 ∧ bits w 21 1 = 1#1 ∧ bits w 10 2 = 0#2 then
    (rmwOp (bits w 15 1) (bits w 12 3)).map fun op =>
      .rmw op (bits w 30 2) (bits w 23 1 = 1#1) (bits w 22 1 = 1#1) (bits w 16 5) (bits w 0 5) (bits w 5 5)
  else if bits w 23 7 = 0b0010001#7 ∧ bits w 21 1 = 1#1 ∧ bits w 10 5 = 0b11111#5 then
    some (.cas (bits w 30 2) (bits w 22 1 = 1#1) (bits w 15 1 = 1#1) (bits w 16 5) (bits w 0 5) (bits w 5 5))
  else none

namespace Atomic

def size : Atomic → BitVec 2
  | .rmw _ s .. => s
  | .cas s .. => s

def rn : Atomic → Reg
  | .rmw _ _ _ _ _ _ rn => rn
  | .cas _ _ _ _ _ rn => rn

/-- The register that receives the old value of the cell. -/
def dest : Atomic → Reg
  | .rmw _ _ _ _ _ rt _ => rt
  | .cas _ _ _ rs _ _ => rs

/-- The cell after the instruction, from its old value and the registers. -/
def cellAfter (c : Core) {n : ℕ} (old : BitVec n) : Atomic → BitVec n
  | .rmw op _ _ _ rs _ _ => op.apply old ((c.read rs).setWidth n)
  | .cas _ _ _ rs rt _ => if old = (c.read rs).setWidth n then (c.read rt).setWidth n else old

def addr (a : Atomic) (c : Core) : Addr := c.base a.rn
def nbytes (a : Atomic) : ℕ := bytes a.size

/-- The single instruction: the old value goes zero-extended to the destination register. -/
def exec (a : Atomic) (c : Core) (m : Memory) : Core × Memory :=
  let old := load m (a.addr c) a.nbytes
  ((c.write a.dest (old.setWidth 64)).next,
    store m (a.addr c) a.nbytes (a.cellAfter c old))

end Atomic

def isBcax (w : Word) : Bool := bits w 21 11 = 0b11001110001#11 ∧ bits w 15 1 = 0#1

def execBcax (vd vn vm va : Reg) (c : Core) : Core :=
  { c with v := Function.update c.v vd (c.v vn ^^^ (c.v vm &&& ~~~c.v va)) }.next

end Machismo.A64
