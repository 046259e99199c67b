import Machismo.Dwarf.Cfi

/-! # Emitting entries

The writers of the synthetic `.eh_frame`: bytes, words and variable-length numbers go to the end of the
buffer, the length of an entry is written over a placeholder when the entry is complete. The buffer is
the list of the bytes up to `ehf_pos`; `written` tells which indices have been written, in this order.
-/
namespace Machismo.EhFrame
open A64 (Byte)
open Data Dwarf

structure Ehf where
  buf : List Byte
  written : List ℕ

def Ehf.pos (s : Ehf) : ℕ := s.buf.length

def Ehf.push (s : Ehf) (bs : List Byte) : Ehf := ⟨s.buf ++ bs,s.written ++ List.range' s.pos bs.length⟩

def ehfU8 (v : Byte) (s : Ehf) : Ehf := s.push [v]
def ehfU32 (v : BitVec 32) (s : Ehf) : Ehf := s.push (leBytes 4 v.toNat)
def ehfU64 (v : BitVec 64) (s : Ehf) : Ehf := s.push (leBytes 8 v.toNat)

def ulebLoop : ℕ → BitVec 64 → Ehf → Ehf
  | 0, _, s => s
  | n + 1, v, s =>
    let byte := (v &&& 0x7f).setWidth 8
    let rest := v >>> 7
    if rest ≠ 0 then ulebLoop n rest (ehfU8 (byte ||| 0x80) s) else ehfU8 byte s

/-- Ten groups of seven bits hold any 64-bit number. -/
def ehfUleb128 (v : BitVec 64) (s : Ehf) : Ehf := ulebLoop 10 v s

def slebLoop : ℕ → BitVec 64 → Ehf → Ehf
  | 0, _, s => s
  | n + 1, v, s =>
    let byte : Byte := (v &&& 0x7f).setWidth 8
    let rest := v.sshiftRight 7
    if (rest = 0 ∧ byte &&& 0x40 = 0) ∨ (rest = -1 ∧ byte &&& 0x40 ≠ 0) then ehfU8 byte s
    else slebLoop n rest (ehfU8 (byte ||| 0x80) s)

def ehfSleb128 (v : BitVec 64) (s : Ehf) : Ehf := slebLoop 10 v s

def dwCfaNop : Byte := 0x00
def dwCfaAdvanceLoc : Byte := 0x40
def dwCfaOffset : Byte := 0x80
def dwCfaOffsetExtended : Byte := 0x05
def dwCfaDefCfa : Byte := 0x0c
def dwCfaDefCfaOffset : Byte := 0x0e
def dwEhPeAbsptr : Byte := 0x00

def alignLoop (align : ℕ) : ℕ → Ehf → Ehf
  | 0, s => s
  | n + 1, s => if s.pos % align ≠ 0 then alignLoop align n (ehfU8 dwCfaNop s) else s

def ehfAlign (align : ℕ) (s : Ehf) : Ehf := alignLoop align align s

/-- `memcpy` of a length over its placeholder. -/
def patchLength (start : ℕ) (length : BitVec 32) (s : Ehf) : Ehf :=
  ⟨s.buf.take start ++ leBytes 4 length.toNat ++ s.buf.drop (start+4),s.written ++ List.range' start 4⟩

def dwarfRegFp : Byte := 29
def dwarfRegLr : Byte := 30
def dwarfRegSp : Byte := 31

/-- What all four entries have in common: a placeholder for the length, padding at the end, and then
the length. -/
def emitEntry (fields : Ehf → Ehf) (s : Ehf) : Ehf :=
  let start := s.pos
  let s := ehfU32 0 s
  let lengthStart := s.pos
  let s := ehfAlign 8 (fields s)
  patchLength start (BitVec.ofNat 32 (s.pos - lengthStart)) s

def emitCieFields (personalityAddr : BitVec 64) (s : Ehf) : Ehf :=
  let s := ehfU8 1 (ehfU32 0 s)
  let s := if personalityAddr ≠ 0 then
      ehfU8 0 (ehfU8 0x52 (ehfU8 0x4c (ehfU8 0x50 (ehfU8 0x7a s))))
    else ehfU8 0 (ehfU8 0x52 (ehfU8 0x7a s))
  let s := ehfUleb128 30 (ehfSleb128 (-8) (ehfUleb128 4 s))
  let s := if personalityAddr ≠ 0 then
      ehfU8 dwEhPeAbsptr (ehfU8 dwEhPeAbsptr (ehfU64 personalityAddr (ehfU8 dwEhPeAbsptr (ehfUleb128 11 s))))
    else ehfU8 dwEhPeAbsptr (ehfUleb128 1 s)
  ehfUleb128 0 (ehfUleb128 31 (ehfU8 dwCfaDefCfa s))

def emitCie (personalityAddr : BitVec 64) (s : Ehf) : ℕ × Ehf := (s.pos,emitEntry (emitCieFields personalityAddr) s)

/-- The fields of the three kinds of frame descriptor entries, before their instructions. -/
def emitFdeFields (cieOffset : ℕ) (funcAddr : BitVec 64) (funcSize : BitVec 32) (lsdaAddr : BitVec 64) (s : Ehf) :
    Ehf :=
  let s := ehfU32 (BitVec.ofNat 32 (s.pos - cieOffset)) s
  let s := ehfU64 (funcSize.setWidth 64) (ehfU64 funcAddr s)
  if lsdaAddr ≠ 0 then ehfU64 lsdaAddr (ehfUleb128 8 s) else ehfUleb128 0 s

def emitFde (cfi : Ehf → Ehf) (cieOffset : ℕ) (funcAddr : BitVec 64) (funcSize : BitVec 32) (lsdaAddr : BitVec 64) :
    Ehf → Ehf := emitEntry fun s => cfi (emitFdeFields cieOffset funcAddr funcSize lsdaAddr s)

/-- The bit of a pair of registers and their DWARF numbers. -/
abbrev RegPair := BitVec 32 × Byte × Byte

def xPairs : List RegPair := [(0x1,19,20),(0x2,21,22),(0x4,23,24),(0x8,25,26),(0x10,27,28)]
def dPairs : List RegPair := [(0x1,72,73),(0x2,74,75),(0x4,76,77),(0x8,78,79)]

/-- One pair, if its bit is set: two registers at the next two slots. -/
def emitPair (emitReg : Byte → ℕ → Ehf → Ehf) (pairs : BitVec 32) (st : ℕ × Ehf) (pair : RegPair) : ℕ × Ehf :=
  if pairs &&& pair.1 ≠ 0 then (st.1+2,emitReg pair.2.2 (st.1+1) (emitReg pair.2.1 st.1 st.2)) else st

def emitX (reg : Byte) (slot : ℕ) (s : Ehf) : Ehf := ehfUleb128 (BitVec.ofNat 64 slot) (ehfU8 (dwCfaOffset ||| reg) s)

def emitD (reg : Byte) (slot : ℕ) (s : Ehf) : Ehf :=
  ehfUleb128 (BitVec.ofNat 64 slot) (ehfUleb128 (reg.setWidth 64) (ehfU8 dwCfaOffsetExtended s))

def frameCfi (encoding : BitVec 32) (s : Ehf) : Ehf :=
  let s := ehfU8 (dwCfaAdvanceLoc ||| 1) s
  let s := ehfUleb128 16 (ehfUleb128 29 (ehfU8 dwCfaDefCfa s))
  let s := ehfUleb128 1 (ehfU8 (dwCfaOffset ||| dwarfRegLr) s)
  let s := ehfUleb128 2 (ehfU8 (dwCfaOffset ||| dwarfRegFp) s)
  let st := xPairs.foldl (emitPair emitX (encoding &&& 0x1F)) (3,s)
  (dPairs.foldl (emitPair emitD ((encoding >>> 8) &&& 0x0F)) st).2

def emitFdeFrame (cieOffset : ℕ) (funcAddr : BitVec 64) (funcSize encoding : BitVec 32) (lsdaAddr : BitVec 64) :
    Ehf → Ehf := emitFde (frameCfi encoding) cieOffset funcAddr funcSize lsdaAddr

def stackSize (encoding : BitVec 32) : BitVec 32 := ((encoding &&& 0x00FFF000) >>> 12) * 16

def framelessCfi (encoding : BitVec 32) (s : Ehf) : Ehf :=
  if stackSize encoding > 0 then
    let s := ehfUleb128 ((stackSize encoding).setWidth 64) (ehfU8 dwCfaDefCfaOffset (ehfU8 (dwCfaAdvanceLoc ||| 1) s))
    if stackSize encoding ≥ 8 then ehfUleb128 1 (ehfU8 (dwCfaOffset ||| dwarfRegLr) s) else s
  else s

def emitFdeFrameless (cieOffset : ℕ) (funcAddr : BitVec 64) (funcSize encoding : BitVec 32) (lsdaAddr : BitVec 64) :
    Ehf → Ehf := emitFde (framelessCfi encoding) cieOffset funcAddr funcSize lsdaAddr

def emitFdeMinimal (cieOffset : ℕ) (funcAddr : BitVec 64) (funcSize : BitVec 32) (lsdaAddr : BitVec 64) : Ehf → Ehf :=
  emitFde (fun s => s) cieOffset funcAddr funcSize lsdaAddr

end Machismo.EhFrame
