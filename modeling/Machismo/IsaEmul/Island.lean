import Machismo.IsaEmul.Encode
import Machismo.IsaEmul.Decode

/-! # The island generator

`emitIsland` and `emitBcaxIsland` build the replacement sequence of one instruction as a list of
words; `island` and `origAddr` are the word addresses of the first island word and of the patched
instruction. Below them the same sequences are given as instructions, and the emitted words are
shown to decode to exactly these.
-/
namespace Machismo.IsaEmul
open A64

/-- Close an island with the branch to the instruction after the patched one. -/
def branchBack (words : List Word) (island origAddr : ℤ) : List Word :=
  words ++ [encB (origAddr + 1 - (island + words.length))]

section Cas
variable (d : LseDecoded)

def casMask : Word := regBit 31#5 ||| regBit d.rs ||| regBit d.rt ||| regBit d.rn
def casS1 : Reg := pickScratch (casMask d)
def casS2 : Reg := pickScratch (casMask d ||| regBit (casS1 d))

def emitCasIsland (island origAddr : ℤ) : List Word :=
  let isX := decide (d.size = 3#2)
  let s1 := casS1 d
  let s2 := casS2 d
  let save := [encStrPre s1, encStrPre s2, encMrsNzcv s1, encStrPre s1]
  let loopStart : ℤ := save.length
  let body := [encLdxr d.size d.acquire s2 d.rn, encCmp isX s2 d.rs, encBcond condNE 3#32,
    encStxr d.size d.release s1 d.rt d.rn]
  let n : ℤ := (save ++ body).length
  let loop := body ++ [encCbnzW s1 (loopStart - n)]
  let result := if d.rs ≠ 31#5 then [encMov isX d.rs s2] else []
  let restore := [encLdrPost s1, encMsrNzcv s1, encLdrPost s2, encLdrPost s1]
  branchBack (save ++ loop ++ [encClrex] ++ result ++ restore) island origAddr

end Cas

section Rmw
variable (d : LseDecoded)

def rmwMask : Word :=
  let mask := regBit 31#5 ||| regBit d.rs ||| regBit d.rn
  if d.rt ≠ 31#5 then mask ||| regBit d.rt else mask

def rmwS1 : Reg := pickScratch (rmwMask d)
def rmwS2 : Reg := pickScratch (rmwMask d ||| regBit (rmwS1 d))
def rmwS3 : Reg := pickScratch (rmwMask d ||| regBit (rmwS1 d) ||| regBit (rmwS2 d))

/-- The computation of the new value, between the load- and the store-exclusive. -/
def emitOp (loadReg newValReg statusReg : Reg) : List Word :=
  let isX := decide (d.size = 3#2)
  match d.op with
  | .ldadd => [encAdd isX newValReg loadReg d.rs]
  | .ldclr => [encBic isX newValReg loadReg d.rs]
  | .ldeor => [encEor isX newValReg loadReg d.rs]
  | .ldset => [encOrr isX newValReg loadReg d.rs]
  | .ldsmax | .ldsmin =>
    let cmp :=
      if d.size.toNat < 2 then
        if d.size = 0#2 then
          [encSxtb newValReg loadReg, encSxtb statusReg d.rs, encCmp false newValReg statusReg]
        else [encSxth newValReg loadReg, encSxth statusReg d.rs, encCmp false newValReg statusReg]
      else [encCmp isX loadReg d.rs]
    let cond := if d.op = .ldsmax then condLT else condGT
    cmp ++ [encCsel isX newValReg d.rs loadReg cond]
  | .ldumax | .ldumin =>
    let cond := if d.op = .ldumax then condLO else condHI
    [encCmp isX loadReg d.rs, encCsel isX newValReg d.rs loadReg cond]
  | .swp => [encMov isX newValReg d.rs]
  | .cas => []

def emitRmwIsland (island origAddr : ℤ) : List Word :=
  let isX := decide (d.size = 3#2)
  let s1 := rmwS1 d
  let s2 := rmwS2 d
  let s3 := rmwS3 d
  let save := [encStrPre s1, encStrPre s2, encStrPre s3, encMrsNzcv s1, encStrPre s1]
  let loopStart : ℤ := save.length
  let body := encLdxr d.size d.acquire s1 d.rn :: emitOp d s1 s2 s3 ++
    [encStxr d.size d.release s3 s2 d.rn]
  let n : ℤ := (save ++ body).length
  let loop := body ++ [encCbnzW s3 (loopStart - n)]
  let result := if d.rt ≠ 31#5 then [encMov isX d.rt s1] else []
  let restore := [encLdrPost s1, encMsrNzcv s1, encLdrPost s3, encLdrPost s2, encLdrPost s1]
  branchBack (save ++ loop ++ result ++ restore) island origAddr

end Rmw

def emitIsland (d : LseDecoded) (island origAddr : ℤ) : List Word :=
  if d.op = .cas then emitCasIsland d island origAddr else emitRmwIsland d island origAddr

/-- The highest register not among the four operands. -/
def bcaxScratch (b : Bcax) : Reg :=
  let used := regBit b.vd ||| regBit b.vn ||| regBit b.vm ||| regBit b.va
  ((List.range 32).reverse.map (BitVec.ofNat 5)).find? (fun r => used &&& regBit r = 0#32) |>.getD 31#5

def emitBcaxIsland (b : Bcax) (island origAddr : ℤ) : List Word :=
  let words :=
    if b.va = b.vd then [encNeonBic b.vd b.vm b.vd, encNeonEor b.vd b.vn b.vd]
    else
      let vtmp := bcaxScratch b
      [encStrQPre vtmp, encNeonBic vtmp b.vm b.va, encNeonEor b.vd b.vn vtmp, encLdrQPost vtmp]
  branchBack words island origAddr

def push (r : Reg) : Insn := .strPre r 31#5 0x1F0#9
def pop (r : Reg) : Insn := .ldrPost r 31#5 0x010#9
def pushQ (r : Reg) : Insn := .strQPre r 31#5 0x1F0#9
def popQ (r : Reg) : Insn := .ldrQPost r 31#5 0x010#9
def movInsn (sf : Bool) (rd rn : Reg) : Insn := .alu .orr sf rd 31#5 rn
def cmpInsn (sf : Bool) (rn rm : Reg) : Insn := .subs sf 31#5 rn rm

def LseDecoded.isX (d : LseDecoded) : Bool := d.size = 3#2

/-- Bit position of the sign of a sub-word operand. -/
def signPos (d : LseDecoded) : BitVec 6 := if d.size = 0#2 then 7#6 else 15#6

def opInsns (d : LseDecoded) (loadReg newValReg statusReg : Reg) : List Insn :=
  match d.op with
  | .ldadd => [.alu .add d.isX newValReg loadReg d.rs]
  | .ldclr => [.alu .bic d.isX newValReg loadReg d.rs]
  | .ldeor => [.alu .eor d.isX newValReg loadReg d.rs]
  | .ldset => [.alu .orr d.isX newValReg loadReg d.rs]
  | .ldsmax | .ldsmin =>
    (if d.size.toNat < 2 then [.sxt (signPos d) newValReg loadReg, .sxt (signPos d) statusReg d.rs,
        cmpInsn false newValReg statusReg]
      else [cmpInsn d.isX loadReg d.rs]) ++
    [.csel d.isX newValReg d.rs loadReg (if d.op = .ldsmax then condLT else condGT)]
  | .ldumax | .ldumin =>
    [cmpInsn d.isX loadReg d.rs,
      .csel d.isX newValReg d.rs loadReg (if d.op = .ldumax then condLO else condHI)]
  | .swp => [movInsn d.isX newValReg d.rs]
  | .cas => []

def rmwSave (s1 s2 s3 : Reg) : List Insn := [push s1, push s2, push s3, .mrsNzcv s1, push s1]
def rmwRestore (s1 s2 s3 : Reg) : List Insn := [pop s1, .msrNzcv s1, pop s3, pop s2, pop s1]

def rmwBody (d : LseDecoded) (s1 s2 s3 : Reg) : List Insn :=
  .ldxr d.size d.acquire s1 d.rn :: opInsns d s1 s2 s3 ++ [.stxr d.size d.release s3 s2 d.rn]

def rmwRetry (d : LseDecoded) (s1 s2 s3 : Reg) : Insn :=
  .cbnz false s3 (BitVec.ofInt 19 (-(rmwBody d s1 s2 s3).length))

def moveResult (d : LseDecoded) (dest src : Reg) : List Insn :=
  if dest ≠ 31#5 then [movInsn d.isX dest src] else []

def rmwInsns (d : LseDecoded) (s1 s2 s3 : Reg) (off : ℤ) : List Insn :=
  rmwSave s1 s2 s3 ++ rmwBody d s1 s2 s3 ++ [rmwRetry d s1 s2 s3] ++ moveResult d d.rt s1 ++
    rmwRestore s1 s2 s3 ++ [.b (BitVec.ofInt 26 off)]

def casSave (s1 s2 : Reg) : List Insn := [push s1, push s2, .mrsNzcv s1, push s1]
def casRestore (s1 s2 : Reg) : List Insn := [pop s1, .msrNzcv s1, pop s2, pop s1]

def casInsns (d : LseDecoded) (s1 s2 : Reg) (off : ℤ) : List Insn :=
  casSave s1 s2 ++ [.ldxr d.size d.acquire s2 d.rn, cmpInsn d.isX s2 d.rs, .bcond condNE 3#19,
    .stxr d.size d.release s1 d.rt d.rn, .cbnz false s1 (BitVec.ofInt 19 (-4)), .clrex] ++
    moveResult d d.rs s2 ++ casRestore s1 s2 ++ [.b (BitVec.ofInt 26 off)]

theorem decode_emitOp (d : LseDecoded) (s1 s2 s3 : Reg) :
    (emitOp d s1 s2 s3).map decode = (opInsns d s1 s2 s3).map some := by
  unfold emitOp opInsns
  cases d.op <;> simp only [List.map_append, List.map_cons, List.map_nil, decode_encAdd, decode_encBic,
    decode_encEor, decode_encOrr, decode_encMov, decode_encCmp, decode_encCsel, movInsn, cmpInsn,
    LseDecoded.isX]
  case ldsmax | ldsmin =>
    by_cases h2 : d.size.toNat < 2
    · by_cases h0 : d.size = 0#2
      · simp [h0, signPos, decode_encSxtb, decode_encCmp]
      · simp [h2, h0, signPos, decode_encSxth, decode_encCmp]
    · simp [h2, decode_encCmp]

/-- The displacement of the closing branch of an island of `n` words. -/
def backOffset (island origAddr : ℤ) (n : ℕ) : ℤ := origAddr + 1 - (island + (n - 1))

theorem decode_branchBack {words : List Word} {is : List Insn} (h : words.map decode = is.map some)
    (island origAddr : ℤ) :
    (branchBack words island origAddr).map decode =
      (is ++ [Insn.b (BitVec.ofInt 26
        (backOffset island origAddr (branchBack words island origAddr).length))]).map some := by
  simp [branchBack, backOffset, h, decode_encB]

theorem length_emitOp (d : LseDecoded) (s1 s2 s3 : Reg) :
    (emitOp d s1 s2 s3).length = (opInsns d s1 s2 s3).length := by
  simpa using congrArg List.length (decode_emitOp d s1 s2 s3)

theorem decode_emitRmwIsland (d : LseDecoded) (island origAddr : ℤ) :
    (emitRmwIsland d island origAddr).map decode =
      (rmwInsns d (rmwS1 d) (rmwS2 d) (rmwS3 d)
        (backOffset island origAddr (emitRmwIsland d island origAddr).length)).map some := by
  have hop := decode_emitOp d (rmwS1 d) (rmwS2 d) (rmwS3 d)
  have hlen := length_emitOp d (rmwS1 d) (rmwS2 d) (rmwS3 d)
  apply decode_branchBack
  by_cases hrt : d.rt = 31#5 <;>
    simp [hop, hlen, hrt, rmwSave, rmwBody, rmwRetry, moveResult, rmwRestore, push, pop, movInsn,
      LseDecoded.isX, decode_encStrPre, decode_encLdrPost, decode_encMrsNzcv, decode_encMsrNzcv,
      decode_encLdxr, decode_encStxr, decode_encCbnzW, decode_encMov] <;>
    exact congrArg (BitVec.ofInt 19) (by omega)

theorem decode_emitCasIsland (d : LseDecoded) (island origAddr : ℤ) :
    (emitCasIsland d island origAddr).map decode =
      (casInsns d (casS1 d) (casS2 d)
        (backOffset island origAddr (emitCasIsland d island origAddr).length)).map some := by
  have hb : encBcond condNE 3#32 = encBcond condNE ((3#19).setWidth 32) := rfl
  apply decode_branchBack
  by_cases hrs : d.rs = 31#5 <;>
    simp [hb, hrs, casSave, moveResult, casRestore, push, pop, movInsn, cmpInsn, LseDecoded.isX,
      decode_encStrPre, decode_encLdrPost, decode_encMrsNzcv, decode_encMsrNzcv, decode_encLdxr,
      decode_encStxr, decode_encCbnzW, decode_encMov, decode_encCmp, decode_encBcond, decode_encClrex]

end Machismo.IsaEmul
