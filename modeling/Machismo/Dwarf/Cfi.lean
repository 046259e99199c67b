import Machismo.Data.Bytes
import Mathlib.Logic.Function.Basic

/-! # Call frame information

The part of DWARF that unwinders read from an `.eh_frame` section: variable-length numbers, call frame
instructions, the common and the frame descriptor entries that hold them, and the row of the unwind
table that a program counter selects. A rule of a row says at which distance from the CFA the value of
a register in the calling frame is stored; a register without a rule keeps its value. Pointers are
absolute (`DW_EH_PE_absptr`).
-/
namespace Machismo.Dwarf
open A64 (Byte)
open Data

/-- A number in groups of seven bits, of which at most `n` are followed by another one. -/
def encodeUleb : ℕ → ℕ → List Byte
  | 0, v => [BitVec.ofNat 8 v]
  | n + 1, v => if v < 128 then [BitVec.ofNat 8 v] else BitVec.ofNat 8 (v % 128 + 128) :: encodeUleb n (v / 128)

def readUleb : List Byte → Option (ℕ × List Byte)
  | [] => none
  | b :: p => if b.toNat < 128 then some (b.toNat,p) else (readUleb p).map fun r => (b.toNat - 128 + 128*r.1,r.2)

def readSleb : List Byte → Option (ℤ × List Byte)
  | [] => none
  | b :: p =>
    if b.toNat < 64 then some (b.toNat,p)
    else if b.toNat < 128 then some (b.toNat - 128,p)
    else (readSleb p).map fun r => (b.toNat - 128 + 128*r.1,r.2)

theorem readUleb_small {v : ℕ} (h : v < 128) (p : List Byte) : readUleb (BitVec.ofNat 8 v :: p) = some (v,p) := by
  have hv : (BitVec.ofNat 8 v).toNat = v := by
    rw [BitVec.toNat_ofNat]
    omega
  rw [readUleb, hv, if_pos h]

theorem readUleb_encodeUleb {n v : ℕ} (h : v < 128^(n+1)) (p : List Byte) :
    readUleb (encodeUleb n v ++ p) = some (v,p) := by
  induction n generalizing v with
  | zero => exact readUleb_small (by simpa using h) p
  | succ n ih =>
    unfold encodeUleb
    split
    next hv => exact readUleb_small hv p
    next hv =>
      have hb : (BitVec.ofNat 8 (v % 128 + 128)).toNat = v % 128 + 128 := by
        rw [BitVec.toNat_ofNat]
        omega
      have hrest : v / 128 < 128^(n+1) := by
        rw [Nat.div_lt_iff_lt_mul (by decide), ← pow_succ]
        exact h
      rw [List.cons_append, readUleb, hb, if_neg (by omega), ih hrest, Option.map_some]
      congr 2
      omega

theorem length_encodeUleb_le {n k v : ℕ} (h : v < 128^(k+1)) (hk : k ≤ n) : (encodeUleb n v).length ≤ k + 1 := by
  induction k generalizing n v with
  | zero =>
    have hv : v < 128 := by simpa using h
    cases n <;> simp [encodeUleb, hv]
  | succ k ih =>
    obtain ⟨n,rfl⟩ := Nat.exists_eq_add_of_le' hk
    have hrest : v / 128 < 128^(k+1) := by
      rw [Nat.div_lt_iff_lt_mul (by decide), ← pow_succ]
      exact h
    have hlen := ih hrest (Nat.le_add_left k n)
    rw [← Nat.add_assoc, encodeUleb]
    split
    · simp
    · rw [List.length_cons]
      omega

inductive CfaInsn where
  | nop
  | advanceLoc (delta : ℕ)
  | offset (reg factored : ℕ)
  | defCfa (reg off : ℕ)
  | defCfaOffset (off : ℕ)
  deriving DecidableEq, Repr

def readInsn : List Byte → Option (CfaInsn × List Byte)
  | [] => none
  | b :: p =>
    if b.toNat / 64 = 1 then some (.advanceLoc (b.toNat % 64),p)
    else if b.toNat / 64 = 2 then (readUleb p).map fun r => (.offset (b.toNat % 64) r.1,r.2)
    else if b = 0x00 then some (.nop,p)
    else if b = 0x05 then
      (readUleb p).bind fun reg => (readUleb reg.2).map fun off => (.offset reg.1 off.1,off.2)
    else if b = 0x0c then
      (readUleb p).bind fun reg => (readUleb reg.2).map fun off => (.defCfa reg.1 off.1,off.2)
    else if b = 0x0e then (readUleb p).map fun off => (.defCfaOffset off.1,off.2)
    else none

def readInsns : ℕ → List Byte → Option (List CfaInsn)
  | _, [] => some []
  | 0, _ :: _ => none
  | n + 1, b :: p => (readInsn (b :: p)).bind fun r => (readInsns n r.2).map (r.1 :: ·)

/-- The bytes read as these instructions, whatever follows them. -/
def Encodes (bs : List Byte) (insns : List CfaInsn) : Prop :=
  insns.length ≤ bs.length ∧
    ∀ n p, readInsns (n + insns.length) (bs ++ p) = (readInsns n p).map (insns ++ ·)

theorem Encodes.nil : Encodes [] [] := ⟨le_rfl,fun n p => by simp⟩

theorem Encodes.append {bs cs : List Byte} {is js : List CfaInsn} (hb : Encodes bs is) (hc : Encodes cs js) :
    Encodes (bs ++ cs) (is ++ js) := by
  constructor
  · have := hb.1
    have := hc.1
    simp only [List.length_append]
    omega
  · intro n p
    rw [List.length_append, Nat.add_comm is.length, ← Nat.add_assoc, List.append_assoc, hb.2, hc.2, Option.map_map]
    congr 1
    funext ks
    simp

theorem Encodes.of_readInsn {b : Byte} {bs : List Byte} {i : CfaInsn}
    (h : ∀ p, readInsn (b :: bs ++ p) = some (i,p)) : Encodes (b :: bs) [i] := by
  refine ⟨by simp,fun n p => ?_⟩
  rw [List.length_singleton, List.cons_append, readInsns, ← List.cons_append, h p, Option.bind_some]
  rfl

theorem Encodes.readInsns {bs : List Byte} {is : List CfaInsn} (h : Encodes bs is) {n : ℕ} (hn : bs.length ≤ n) :
    readInsns n bs = some is := by
  have hle := h.1
  have hr := h.2 (n - is.length) []
  rw [Nat.sub_add_cancel (by omega), List.append_nil, Dwarf.readInsns, Option.map_some, List.append_nil] at hr
  exact hr

section Insns
variable {n v reg : ℕ}

theorem encodes_nops (n : ℕ) : Encodes (List.replicate n 0) (List.replicate n .nop) := by
  induction n with
  | zero => exact .nil
  | succ n ih =>
    have hnop : Encodes [0] [.nop] := .of_readInsn fun _ => rfl
    exact hnop.append ih

theorem encodes_advanceLoc {b : Byte} (h : b.toNat / 64 = 1) : Encodes [b] [.advanceLoc (b.toNat % 64)] :=
  .of_readInsn fun _ => if_pos h

theorem encodes_offset {b : Byte} (hb : b.toNat / 64 = 2) (hv : v < 128^(n+1)) :
    Encodes (b :: encodeUleb n v) [.offset (b.toNat % 64) v] := by
  refine .of_readInsn fun p => ?_
  rw [List.cons_append, readInsn, if_neg (by omega), if_pos hb, readUleb_encodeUleb hv, Option.map_some]

theorem encodes_offsetExtended {k : ℕ} (hreg : reg < 128^(k+1)) (hv : v < 128^(n+1)) :
    Encodes (0x05 :: (encodeUleb k reg ++ encodeUleb n v)) [.offset reg v] := by
  refine .of_readInsn fun p => ?_
  have hread : ∀ q, readInsn (0x05 :: q) =
      (readUleb q).bind fun reg => (readUleb reg.2).map fun off => (.offset reg.1 off.1,off.2) := fun _ => rfl
  rw [List.cons_append, List.append_assoc, hread, readUleb_encodeUleb hreg, Option.bind_some, readUleb_encodeUleb hv,
    Option.map_some]

theorem encodes_defCfa {k : ℕ} (hreg : reg < 128^(k+1)) (hv : v < 128^(n+1)) :
    Encodes (0x0c :: (encodeUleb k reg ++ encodeUleb n v)) [.defCfa reg v] := by
  refine .of_readInsn fun p => ?_
  have hread : ∀ q, readInsn (0x0c :: q) =
      (readUleb q).bind fun reg => (readUleb reg.2).map fun off => (.defCfa reg.1 off.1,off.2) := fun _ => rfl
  rw [List.cons_append, List.append_assoc, hread, readUleb_encodeUleb hreg, Option.bind_some, readUleb_encodeUleb hv,
    Option.map_some]

theorem encodes_defCfaOffset (hv : v < 128^(n+1)) : Encodes (0x0e :: encodeUleb n v) [.defCfaOffset v] := by
  refine .of_readInsn fun p => ?_
  have hread : ∀ q, readInsn (0x0e :: q) = (readUleb q).map fun off => (.defCfaOffset off.1,off.2) := fun _ => rfl
  rw [List.cons_append, hread, readUleb_encodeUleb hv, Option.map_some]

end Insns

structure Row where
  cfaReg : ℕ
  cfaOff : ℕ
  rule : ℕ → Option ℤ

/-- The row for a program counter at distance `pc` from the start; `loc` is the location reached. -/
def exec (codeAlign : ℕ) (dataAlign : ℤ) (pc : ℕ) : List CfaInsn → ℕ → Row → Row
  | [], _, row => row
  | .nop :: insns, loc, row => exec codeAlign dataAlign pc insns loc row
  | .advanceLoc delta :: insns, loc, row =>
    if pc < loc + delta*codeAlign then row else exec codeAlign dataAlign pc insns (loc + delta*codeAlign) row
  | .offset reg factored :: insns, loc, row =>
    exec codeAlign dataAlign pc insns loc
      { row with rule := Function.update row.rule reg (some (factored*dataAlign)) }
  | .defCfa reg off :: insns, loc, row =>
    exec codeAlign dataAlign pc insns loc { row with cfaReg := reg, cfaOff := off }
  | .defCfaOffset off :: insns, loc, row => exec codeAlign dataAlign pc insns loc { row with cfaOff := off }

theorem exec_append_nops (codeAlign : ℕ) (dataAlign : ℤ) (pc : ℕ) (is : List CfaInsn) (n loc : ℕ) (row : Row) :
    exec codeAlign dataAlign pc (is ++ List.replicate n .nop) loc row = exec codeAlign dataAlign pc is loc row := by
  induction is generalizing loc row with
  | nil =>
    induction n with
    | zero => rfl
    | succ n ih => exact ih
  | cons i is ih =>
    cases i with
    | advanceLoc delta =>
      rw [List.cons_append, exec, exec]
      split
      · rfl
      · exact ih _ _
    | nop => exact ih _ _
    | offset reg factored => exact ih _ _
    | defCfa reg off => exact ih _ _
    | defCfaOffset off => exact ih _ _

structure Machine where
  regs : ℕ → BitVec 64
  mem : BitVec 64 → BitVec 64

structure Caller where
  pc : BitVec 64
  regs : ℕ → BitVec 64

def Row.cfa (row : Row) (m : Machine) : BitVec 64 := m.regs row.cfaReg + BitVec.ofNat 64 row.cfaOff

def Row.value (row : Row) (m : Machine) (reg : ℕ) : BitVec 64 :=
  ((row.rule reg).map fun off => m.mem (row.cfa m + BitVec.ofInt 64 off)).getD (m.regs reg)

/-- One step of unwinding; the CFA is the stack pointer (register 31) of the caller. -/
def Row.unwind (row : Row) (returnReg : ℕ) (m : Machine) : Caller :=
  ⟨row.value m returnReg,Function.update (row.value m) 31 (row.cfa m)⟩

structure Cie where
  augmentation : List Byte
  codeAlign : ℕ
  dataAlign : ℤ
  returnReg : ℕ
  augmentationData : List Byte
  insns : List CfaInsn
  deriving DecidableEq

structure Fde where
  ciePointer : ℕ
  location : ℕ
  range : ℕ
  augmentationData : List Byte
  insns : List CfaInsn
  deriving DecidableEq

def readString : List Byte → Option (List Byte × List Byte)
  | [] => none
  | b :: p => if b = 0 then some ([],p) else (readString p).map fun r => (b :: r.1,r.2)

def readFixed (n : ℕ) (p : List Byte) : Option (ℕ × List Byte) :=
  if p.length < n then none else some (leNat (p.take n),p.drop n)

/-- A common information entry of version 1 whose augmentation starts with `z`, without its length. -/
def readCie (p : List Byte) : Option Cie :=
  (readFixed 4 p).bind fun id =>
  (readFixed 1 id.2).bind fun version =>
  (readString version.2).bind fun augmentation =>
  (readUleb augmentation.2).bind fun codeAlign =>
  (readSleb codeAlign.2).bind fun dataAlign =>
  (readFixed 1 dataAlign.2).bind fun returnReg =>
  (readUleb returnReg.2).bind fun len =>
  (readInsns len.2.length (len.2.drop len.1)).bind fun insns =>
  if id.1 = 0 ∧ version.1 = 1 ∧ augmentation.1.head? = some 0x7a then
    some ⟨augmentation.1,codeAlign.1,dataAlign.1,returnReg.1,len.2.take len.1,insns⟩
  else none

/-- A frame descriptor entry with absolute pointers, without its length. -/
def readFde (p : List Byte) : Option Fde :=
  (readFixed 4 p).bind fun ciePointer =>
  (readFixed 8 ciePointer.2).bind fun location =>
  (readFixed 8 location.2).bind fun range =>
  (readUleb range.2).bind fun len =>
  (readInsns len.2.length (len.2.drop len.1)).bind fun insns =>
  if ciePointer.1 ≠ 0 then some ⟨ciePointer.1,location.1,range.1,len.2.take len.1,insns⟩ else none

/-- The row of the unwind table for a program counter at distance `pc` from the start of the function. -/
def Fde.row (fde : Fde) (cie : Cie) (pc : ℕ) : Row :=
  exec cie.codeAlign cie.dataAlign pc fde.insns 0
    (exec cie.codeAlign cie.dataAlign pc cie.insns 0 ⟨0,0,fun _ => none⟩)

theorem readFixed_leBytes (n v : ℕ) (p : List Byte) : readFixed n (leBytes n v ++ p) = some (v % 256^n,p) := by
  rw [readFixed, if_neg (by simp), List.take_left' (length_leBytes n v), List.drop_left' (length_leBytes n v),
    leNat_leBytes]

theorem readString_append {str : List Byte} (h : ∀ b ∈ str, b ≠ 0) (p : List Byte) :
    readString (str ++ 0 :: p) = some (str,p) := by
  induction str with
  | nil => rfl
  | cons b str ih =>
    rw [List.cons_append, readString, if_neg (h b List.mem_cons_self),
      ih fun c hc => h c (List.mem_cons_of_mem _ hc), Option.map_some]

/-- The entries of a section, without their lengths, up to the zero terminator. -/
def entries : ℕ → List Byte → List (List Byte)
  | 0, _ => []
  | n + 1, p =>
    let len := leNat (p.take 4)
    if len = 0 then [] else (p.drop 4).take len :: entries n (p.drop (4+len))

/-- The body of the entry at an offset of a section. -/
def entryAt (p : List Byte) (off : ℕ) : List Byte := (p.drop (off+4)).take (leNat ((p.drop off).take 4))

def withLength (body : List Byte) : List Byte := leBytes 4 body.length ++ body

theorem take_withLength {body : List Byte} (h : body.length < 2^32) (p : List Byte) :
    leNat ((withLength body ++ p).take 4) = body.length := by
  rw [withLength, List.append_assoc, List.take_left' (length_leBytes 4 _), leNat_leBytes]
  exact Nat.mod_eq_of_lt h

theorem entryAt_withLength {body : List Byte} (h : body.length < 2^32) (before p : List Byte) :
    entryAt (before ++ withLength body ++ p) before.length = body := by
  have hdrop : (before ++ (withLength body ++ p)).drop (before.length + 4) = body ++ p := by
    rw [← List.drop_drop, List.drop_left, withLength, List.append_assoc, List.drop_left' (length_leBytes 4 _)]
  rw [entryAt, List.append_assoc, List.drop_left, take_withLength h, hdrop, List.take_left]

/-- The entries of a section with their offsets, where the given bytes start at `off`. -/
def walk : ℕ → ℕ → List Byte → List (ℕ × List Byte)
  | 0, _, _ => []
  | n + 1, off, p =>
    let len := leNat (p.take 4)
    if len = 0 then [] else (off,(p.drop 4).take len) :: walk n (off+4+len) (p.drop (4+len))

/-- Bodies with the offsets of their entries, the first of which is at `off`. -/
def placeBodies : ℕ → List (List Byte) → List (ℕ × List Byte)
  | _, [] => []
  | off, body :: bodies => (off,body) :: placeBodies (off+4+body.length) bodies

theorem walk_snd (n off : ℕ) (p : List Byte) : (walk n off p).map Prod.snd = entries n p := by
  induction n generalizing off p with
  | zero => rfl
  | succ n ih =>
    rw [walk, entries]
    split
    · rfl
    · rw [List.map_cons, ih]

theorem placeBodies_snd (off : ℕ) (bodies : List (List Byte)) : (placeBodies off bodies).map Prod.snd = bodies := by
  induction bodies generalizing off with
  | nil => rfl
  | cons body bodies ih => rw [placeBodies, List.map_cons, ih]

/-- A section made of entries is walked over as these, each at the end of the one before. -/
theorem walk_flatMap {bodies : List (List Byte)} (h : ∀ body ∈ bodies, body ≠ [] ∧ body.length < 2^32) {n : ℕ}
    (hn : bodies.length ≤ n) (off : ℕ) (p : List Byte) :
    walk n off (bodies.flatMap withLength ++ (leBytes 4 0 ++ p)) = placeBodies off bodies := by
  induction bodies generalizing n off with
  | nil =>
    cases n with
    | zero => rfl
    | succ n =>
      rw [List.flatMap_nil, List.nil_append, walk, List.take_left' (length_leBytes 4 0), leNat_leBytes]
      rfl
  | cons body bodies ih =>
    obtain ⟨n,rfl⟩ := Nat.exists_eq_add_of_le' hn
    obtain ⟨hne,hlen⟩ := h body List.mem_cons_self
    have hrest := ih (fun b hb => h b (List.mem_cons_of_mem _ hb)) (n := n + bodies.length) (by omega)
    have hpos : body.length ≠ 0 := fun h0 => hne (List.length_eq_zero_iff.mp h0)
    have hdrop : (withLength body ++ (bodies.flatMap withLength ++ (leBytes 4 0 ++ p))).drop 4 =
        body ++ (bodies.flatMap withLength ++ (leBytes 4 0 ++ p)) := by
      rw [withLength, List.append_assoc, List.drop_left' (length_leBytes 4 _)]
    rw [List.flatMap_cons, List.append_assoc, List.length_cons, ← Nat.add_assoc, walk, take_withLength hlen,
      if_neg hpos, ← List.drop_drop, hdrop, List.take_left, List.drop_left, hrest, placeBodies]

theorem entryAt_of_mem {bodies : List (List Byte)} (h : ∀ body ∈ bodies, body.length < 2^32) {before p : List Byte}
    {off : ℕ} {body : List Byte} (hmem : (off,body) ∈ placeBodies before.length bodies) :
    entryAt (before ++ (bodies.flatMap withLength ++ p)) off = body := by
  induction bodies generalizing before with
  | nil => cases hmem
  | cons b bodies ih =>
    have hsplit : before ++ ((b :: bodies).flatMap withLength ++ p) =
        before ++ withLength b ++ (bodies.flatMap withLength ++ p) := by
      rw [List.flatMap_cons, List.append_assoc, List.append_assoc]
    rw [hsplit]
    rcases List.mem_cons.mp hmem with heq | hmem
    · obtain ⟨rfl,rfl⟩ := Prod.mk.inj heq
      exact entryAt_withLength (h _ List.mem_cons_self) before _
    · refine ih (fun b hb => h b (List.mem_cons_of_mem _ hb)) ?_
      rw [List.length_append, withLength, List.length_append, length_leBytes, ← Nat.add_assoc]
      exact hmem

end Machismo.Dwarf
